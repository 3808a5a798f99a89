/-
ApiStencil/Generator/Target.lean

The files that can be generated: the templates, the document that each is expanded
for, and the configuration with which the documents are resolved.
-/
import ApiStencil.Config

namespace ApiStencil.Generator

/-! ### Writing templates -/

/-- The placeholder for the value with this name. -/
def value (name : String) : String := "\x7b" ++ name ++ "\x7d"

/-- An opening brace that is no placeholder's. -/
def opened : String := "\x7b\x7b"

/-- A closing brace that is no placeholder's. -/
def closed : String := "\x7d\x7d"

/-- The lines of a text, each with a line break. -/
def unlines (lines : List String) : String :=
  String.join (lines.map (· ++ "\n"))

/-! ### The templates -/

/-- The tables of the functions that go through the instance and through the device, with code
that fills them. -/
def dispatchTable : String :=
  unlines
    ["#pragma once",
      "",
      "#include <vulkan/vulkan.h>",
      "",
      "struct VkLayerInstanceDispatchTable " ++ opened,
      "@foreach function where('" ++ value "funcType" ++ "' == 'instance')",
      "    PFN_" ++ value "funcName" ++ " " ++ value "funcShortName" ++ ";",
      "@end function",
      closed ++ ";",
      "",
      "struct VkLayerDeviceDispatchTable " ++ opened,
      "@foreach function where('" ++ value "funcType" ++ "' == 'device')",
      "    PFN_" ++ value "funcName" ++ " " ++ value "funcShortName" ++ ";",
      "@end function",
      closed ++ ";",
      "",
      "static inline void layer_init_instance_dispatch_table(VkInstance instance, " ++
        "struct VkLayerInstanceDispatchTable* table, PFN_vkGetInstanceProcAddr gpa) " ++ opened,
      "@foreach function where('" ++ value "funcType" ++ "' == 'instance')",
      "    table->" ++ value "funcShortName" ++ " = (PFN_" ++ value "funcName" ++
        ")gpa(instance, \"" ++ value "funcName" ++ "\");",
      "@end function",
      closed,
      "",
      "static inline void layer_init_device_dispatch_table(VkDevice device, " ++
        "struct VkLayerDeviceDispatchTable* table, PFN_vkGetDeviceProcAddr gpa) " ++ opened,
      "@foreach function where('" ++ value "funcType" ++ "' == 'device')",
      "    table->" ++ value "funcShortName" ++ " = (PFN_" ++ value "funcName" ++
        ")gpa(device, \"" ++ value "funcName" ++ "\");",
      "@end function",
      closed]

/-- Functions that give the names of the options of enumerations and of single bits. -/
def enumStrings : String :=
  unlines
    ["#pragma once",
      "",
      "#include <vulkan/vulkan.h>",
      "",
      "@foreach enum",
      "static inline const char* string_" ++ value "enumName" ++ "(" ++ value "enumName" ++
        " value) " ++ opened,
      "    switch (value) " ++ opened,
      "@foreach option",
      "        case " ++ value "optName" ++ ":",
      "            return \"" ++ value "optName" ++ "\";",
      "@end option",
      "        default:",
      "            return \"Unhandled " ++ value "enumName" ++ "\";",
      "    " ++ closed,
      closed,
      "",
      "@end enum",
      "@foreach bitmask where(" ++ value "bitWidth" ++ " == 32)",
      "static inline const char* string_" ++ value "bitName" ++ "(" ++ value "bitName" ++
        " value) " ++ opened,
      "    switch (value) " ++ opened,
      "@foreach option where(not " ++ value "optMultiValue" ++ ")",
      "        case " ++ value "optName" ++ ":",
      "            return \"" ++ value "optName" ++ "\";",
      "@end option",
      "        default:",
      "            return \"Unhandled " ++ value "bitName" ++ "\";",
      "    " ++ closed,
      closed,
      "",
      "@end bitmask"]

/-- A function that gives the sizes of the structs that can be chained to others. -/
def structSizes : String :=
  unlines
    ["#pragma once",
      "",
      "#include <stddef.h>",
      "#include <vulkan/vulkan.h>",
      "",
      "// Returns the size of a struct that can appear in a pNext chain, " ++
        "or 0 when its type is unknown.",
      "static inline size_t get_pnext_struct_size(const void* next) " ++ opened,
      "    switch (((const VkBaseInStructure*)next)->sType) " ++ opened,
      "@foreach struct where(" ++ value "sctStructureTypeIndex" ++ " != -1)",
      "        case (VkStructureType)" ++ value "sctStructureTypeIndex" ++ ":",
      "            return sizeof(" ++ value "sctName" ++ ");",
      "@end struct",
      "        default:",
      "            return 0;",
      "    " ++ closed,
      closed]

/-- A wrapper for every function, which prints the arguments where that is safe, keeps track of
created objects, and calls the next layer. -/
def layerFunctions : String :=
  unlines
    ["#include \"vk_dispatch_table.h\"",
      "#include \"vk_layer_support.h\"",
      "",
      "@foreach function where('" ++ value "funcName" ++
        "' not in ['vkGetInstanceProcAddr', 'vkGetDeviceProcAddr'])",
      "VKAPI_ATTR " ++ value "funcReturn" ++ " VKAPI_CALL layer_" ++ value "funcShortName" ++ "(" ++
        value "funcTypedParams" ++ ") " ++ opened,
      "@if(" ++ value "funcSafeToPrint" ++ ")",
      "@foreach parameter",
      "    log_param(\"" ++ value "funcName" ++ "\", \"" ++ value "prmName" ++ "\", " ++
        value "prmName" ++ ");",
      "@end parameter",
      "@end if",
      "@if(\"" ++ value "funcStateTrackingCode" ++ "\" != \"\")",
      "    " ++ value "funcStateTrackingCode",
      "@end if",
      "@if('" ++ value "funcReturn" ++ "' == 'void')",
      "    " ++ value "funcType" ++ "_dispatch_table(" ++ value "funcDispatchParam" ++ ")->" ++
        value "funcShortName" ++ "(" ++ value "funcNamedParams" ++ ");",
      "@end if",
      "@if('" ++ value "funcReturn" ++ "' != 'void')",
      "    return " ++ value "funcType" ++ "_dispatch_table(" ++ value "funcDispatchParam" ++
        ")->" ++ value "funcShortName" ++ "(" ++ value "funcNamedParams" ++ ");",
      "@end if",
      closed,
      "",
      "@end function"]

/-- The sizes of the enumerations and the members of the structs of the video headers. -/
def videoTypes : String :=
  unlines
    ["#pragma once",
      "",
      "#include <stdint.h>",
      "",
      "@foreach enum",
      "#define " ++ value "enumName" ++ "_OPTION_COUNT " ++ value "enumOptionCount",
      "@end enum",
      "",
      "@foreach struct",
      "// " ++ value "sctName",
      "@foreach member",
      "//     " ++ value "memDeclaration",
      "@end member",
      "@end struct"]

/-! ### The targets -/

/-- The registry documents. -/
inductive DocumentName where
  | api
  | video
deriving DecidableEq, Repr

/-- The file that holds the document. -/
def DocumentName.fileName : DocumentName → String
  | .api => "vk.xml"
  | .video => "video.xml"

/-- A file that can be generated. -/
structure Target where
  name : String
  document : DocumentName
  template : String
deriving DecidableEq, Repr

namespace Target

/-- All targets, in the order in which they are generated. -/
def all : List Target :=
  [⟨"vk_dispatch_table.h", .api, dispatchTable⟩,
    ⟨"vk_enum_string_helper.h", .api, enumStrings⟩,
    ⟨"vk_struct_size_helper.h", .api, structSizes⟩,
    ⟨"vk_layer_functions.cpp", .api, layerFunctions⟩,
    ⟨"vk_video_types.h", .video, videoTypes⟩]

/-- The target with this name. -/
def find? (name : String) : Option Target :=
  all.find? (·.name = name)

end Target

/-- The code in the wrappers of the functions that create and destroy dispatchable objects. -/
def stateTracking : List (String × String) :=
  [("vkCreateInstance", "track_instance_creation(pCreateInfo, pInstance);"),
    ("vkDestroyInstance", "forget_instance(instance);"),
    ("vkCreateDevice", "track_device_creation(physicalDevice, pCreateInfo, pDevice);"),
    ("vkDestroyDevice", "forget_device(device);")]

/-- The configuration with which every target is generated. -/
def config : Config :=
  stateTracking.foldl (fun c (function, code) => c.withStateTracking function code) .default

end ApiStencil.Generator
