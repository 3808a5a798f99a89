/-
ApiStencil/Generator/CommandLine.lean

The arguments of the generator.  Options may stand anywhere in front of a double
dash and may be given once; an option that takes a value takes it from the same
argument after an equals sign or from the next argument, and else from a variable
of the environment.
-/
import ApiStencil.Output.Write

namespace ApiStencil.Generator

/-- What a run was asked for. -/
structure Request where
  registry : String
  output : String
  mode : Output.Mode
  format : Bool
  targets : List String
deriving DecidableEq, Repr

/-- What arguments ask for. -/
inductive Invocation where
  | run (r : Request)
  | help
  | version
  /-- The arguments are wrong. -/
  | misuse
deriving DecidableEq, Repr

/-- What is shown when the version is asked for. -/
def version : String := "autogen 0.0.0\n"

namespace CommandLine

/-- The options that take a value. -/
inductive Setting where
  | registry
  | output
deriving DecidableEq, Repr

/-- The options that take none. -/
inductive Switch where
  | verify
  | incremental
  | noFormat
deriving DecidableEq, Repr

def Setting.name : Setting → String
  | .registry => "registry"
  | .output => "output"

/-- The variable of the environment that is used without the option. -/
def Setting.environmentName : Setting → String
  | .registry => "LAYERGEN_REGISTRY"
  | .output => "LAYERGEN_OUTPUT"

/-- The value that is used without the option and the variable. -/
def Setting.initial : Setting → String
  | .registry => "registry"
  | .output => "generated"

def Switch.name : Switch → String
  | .verify => "verify"
  | .incremental => "incremental"
  | .noFormat => "no-format"

/-- The options and targets that the arguments so far have given. -/
structure Given where
  settings : List (Setting × String)
  switches : List Switch
  targets : List String
deriving DecidableEq, Repr

/-- What reading the arguments leads to. -/
inductive Reading where
  | done (g : Given)
  | help
  | version
  | misuse
deriving DecidableEq, Repr

namespace Given

/-- Gives an option its value, which must be neither empty nor the second one. -/
def set? (g : Given) (s : Setting) (value : String) : Option Given :=
  if value = "" ∨ g.settings.any (·.1 = s) then none
  else some { g with settings := g.settings ++ [(s, value)] }

/-- Turns a switch on, which must be off. -/
def turnOn? (g : Given) (s : Switch) : Option Given :=
  if s ∈ g.switches then none else some { g with switches := g.switches ++ [s] }

def addTargets (g : Given) (names : List String) : Given :=
  { g with targets := g.targets ++ names }

end Given

/-- Whether an argument looks like an option: a dash that does not stand alone. -/
def looksLikeOption (argument : String) : Bool :=
  match argument.toList with
  | '-' :: _ :: _ => true
  | _ => false

/-- The parts of an argument around its first equals sign. -/
def splitValue (argument : String) : String × Option String :=
  let text := argument.toList
  let name := String.ofList (text.takeWhile (· ≠ '='))
  match text.dropWhile (· ≠ '=') with
  | [] => (name, none)
  | _ :: value => (name, some (String.ofList value))

/-- What a word after two dashes stands for. -/
inductive Long where
  | setting (s : Setting)
  | switch (s : Switch)
  | help
  | version
  | unknown
deriving DecidableEq, Repr

/-- What a word stands for, which has to be given in full. -/
def Long.ofName (name : String) : Long :=
  match [Setting.registry, .output].find? (·.name = name) with
  | some s => .setting s
  | none =>
    match [Switch.verify, .incremental, .noFormat].find? (·.name = name) with
    | some s => .switch s
    | none =>
      if name = "help" then .help else if name = "version" then .version else .unknown

/-- Reads the arguments after those that have given `g`. -/
def readFrom (g : Given) : List String → Reading
  | [] => .done g
  | argument :: rest =>
    match argument.toList with
    | ['-', '-'] => .done (g.addTargets rest)
    | '-' :: '-' :: long =>
      let (name, value) := splitValue (String.ofList long)
      match Long.ofName name, value, rest with
      | .setting s, some value, rest =>
        match g.set? s value with
        | some g => readFrom g rest
        | none => .misuse
      | .setting s, none, value :: rest =>
        if looksLikeOption value then .misuse
        else match g.set? s value with
          | some g => readFrom g rest
          | none => .misuse
      | .switch s, none, rest =>
        match g.turnOn? s with
        | some g => readFrom g rest
        | none => .misuse
      | .help, none, _ => .help
      | .version, none, _ => .version
      | _, _, _ => .misuse
    | '-' :: 'h' :: _ => .help
    | '-' :: 'V' :: _ => .version
    | '-' :: _ :: _ => .misuse
    | _ => readFrom (g.addTargets [argument]) rest

/-- The value of an option, and none if the variable that replaces it is empty. -/
def Given.value? (g : Given) (environment : String → Option String) (s : Setting) :
    Option String :=
  match g.settings.find? (·.1 = s) with
  | some (_, value) => some value
  | none =>
    match environment s.environmentName with
    | some value => if value = "" then none else some value
    | none => some s.initial

/-- The mode that the switches ask for, which exclude each other. -/
def Given.mode? (g : Given) : Option Output.Mode :=
  match g.switches.contains .verify, g.switches.contains .incremental with
  | true, true => none
  | true, false => some .verify
  | false, true => some .incremental
  | false, false => some .generate

/-- The request that is complete with the environment and the defaults. -/
def Given.request? (g : Given) (environment : String → Option String) : Option Request := do
  let registry ← g.value? environment .registry
  let output ← g.value? environment .output
  let mode ← g.mode?
  return ⟨registry, output, mode, !g.switches.contains .noFormat, g.targets⟩

/-- What arguments ask for in an environment. -/
def read (environment : String → Option String) (arguments : List String) : Invocation :=
  match readFrom ⟨[], [], []⟩ arguments with
  | .done g =>
    match g.request? environment with
    | some r => .run r
    | none => .misuse
  | .help => .help
  | .version => .version
  | .misuse => .misuse

end CommandLine

end ApiStencil.Generator
