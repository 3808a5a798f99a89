/-
ApiStencil/Config.lean

What can be chosen about the way a registry document is resolved.
-/
import ApiStencil.OrderedMap

namespace ApiStencil

/-- The choices for resolving a document. -/
structure Config where
  /-- The API whose declarations are kept. -/
  api : String
  /-- The commands that never become functions. -/
  excludedFunctions : List String
  /-- The command that creates the instance.  It is dispatched through the instance although its
  first parameter is no handle. -/
  instanceCreationFunction : String
  /-- The types that are always used behind a pointer. -/
  opaquePointerTypes : List String
  /-- Code for the wrappers of functions, by the name of the function. -/
  stateTracking : OrderedMap String

namespace Config

/-- The choices that are made where nothing else is said. -/
def default : Config where
  api := "vulkan"
  excludedFunctions := ["vkEnumerateInstanceVersion"]
  instanceCreationFunction := "vkCreateInstance"
  opaquePointerTypes :=
    ["Display", "xcb_connection_t", "wl_display", "wl_surface", "SECURITY_ATTRIBUTES",
      "ANativeWindow", "AHardwareBuffer", "IDirectFB", "IDirectFBSurface", "_screen_context",
      "_screen_window", "void"]
  stateTracking := ∅

/-- Whether a list of APIs, separated by commas, holds the one that is kept.  Without a list all
APIs are meant. -/
def containsApi (config : Config) : Option String → Bool
  | none => true
  | some list => (list.toList.splitOn ',').contains config.api.toList

/-- Whether a command never becomes a function. -/
def isExcluded (config : Config) (function : String) : Bool :=
  config.excludedFunctions.contains function

/-- Whether a type is always used behind a pointer. -/
def isOpaquePointer (config : Config) (type : String) : Bool :=
  config.opaquePointerTypes.contains type

/-- Sets the code for the wrapper of a function. -/
def withStateTracking (config : Config) (function code : String) : Config :=
  { config with stateTracking := config.stateTracking.insert function code }

/-- Whether two configurations are the same but for the order of their state tracking code. -/
def agrees (a b : Config) : Bool :=
  a.api == b.api && a.excludedFunctions == b.excludedFunctions &&
    a.instanceCreationFunction == b.instanceCreationFunction &&
    a.opaquePointerTypes == b.opaquePointerTypes &&
    a.stateTracking.size == b.stateTracking.size &&
    a.stateTracking.entries.all fun (k, v) => b.stateTracking.get? k == some v

end Config

end ApiStencil
