/-! The commands, and how they are written. A word that begins with a hyphen is a flag unless it
stands behind `--` or is a hyphen alone, and no flag may be given twice. Requests for help or for
the version are left out. -/
namespace Predictive

namespace Command

structure Flag where
  long : String
  short : Option Char := none
  takesValue : Bool := true
deriving DecidableEq, Repr

structure Arguments where
  flags : List (Flag × String)
  words : List String
deriving DecidableEq, Repr

namespace Arguments

def looksLikeFlag : List Char → Bool
  | '-' :: _ :: _ => true
  | _ => false

def flagOf? (known : List Flag) : List Char → Option (Flag × Option (List Char))
  | '-' :: '-' :: name =>
    let long := name.takeWhile (· ≠ '=')
    let value := match name.dropWhile (· ≠ '=') with
      | _ :: value => some value
      | [] => none
    (known.find? (·.long.toList == long)).map (·, value)
  | '-' :: c :: rest =>
    let value := match rest with
      | [] => none
      | '=' :: value => some value
      | value => some value
    (known.find? (·.short == some c)).map (·, value)
  | _ => none

def addFlag (flag : Flag) (value : List Char) (args : Arguments) : Option Arguments :=
  if args.flags.any (·.1 == flag) then none
  else some { args with flags := (flag, String.ofList value) :: args.flags }

def addWord (word : String) (args : Arguments) : Arguments :=
  { args with words := word :: args.words }

def ofWords? (known : List Flag) : List String → Option Arguments
  | [] => some ⟨[], []⟩
  | word :: rest =>
    if word = "--" then some ⟨[], rest⟩
    else if looksLikeFlag word.toList then
      match flagOf? known word.toList with
      | none => none
      | some (flag, value) =>
        match flag.takesValue, value with
        | false, some _ => none
        | false, none => (ofWords? known rest).bind (addFlag flag [])
        | true, some value => (ofWords? known rest).bind (addFlag flag value)
        | true, none =>
          match rest with
          | [] => none
          | value :: rest =>
            if looksLikeFlag value.toList then none
            else (ofWords? known rest).bind (addFlag flag value.toList)
    else (ofWords? known rest).map (addWord word)

def value? (flag : Flag) (args : Arguments) : Option String :=
  (args.flags.find? (·.1 == flag)).map (·.2)

def has (flag : Flag) (args : Arguments) : Bool :=
  (args.value? flag).isSome

end Arguments

/-- A decimal number below `2 ^ 64`, with an optional plus sign. -/
def number? (text : String) : Option Nat :=
  let digits : List Char := match text.toList with
    | '+' :: digits => digits
    | digits => digits
  let value := digits.foldl (fun n c => n * 10 + (c.toNat - 48)) 0
  if digits ≠ [] ∧ digits.all Char.isDigit ∧ value < UInt64.size then some value else none

end Command

structure GenerateOptions where
  count : Nat := 1
  maxLength : Option Nat := none
  seed : Option UInt64 := none
  config : Option String := none
  check : Bool := false
deriving DecidableEq, Repr

inductive Command where
  | table
  | parse (sentence : String) (json : Bool)
  | generate (options : GenerateOptions)
  | derive (choices : List Nat)
deriving DecidableEq, Repr

namespace Command

def jsonFlag : Flag := { long := "json", takesValue := false }
def countFlag : Flag := { long := "count", short := some 'n' }
def maxLengthFlag : Flag := { long := "max-length" }
def seedFlag : Flag := { long := "seed" }
def configFlag : Flag := { long := "config" }
def checkFlag : Flag := { long := "check", takesValue := false }

def optionalNumber? (flag : Flag) (args : Arguments) : Option (Option Nat) :=
  match args.value? flag with
  | none => some none
  | some text => (number? text).map some

def generateOptions? (args : Arguments) : Option GenerateOptions := do
  let count ← optionalNumber? countFlag args
  let maxLength ← optionalNumber? maxLengthFlag args
  let seed ← optionalNumber? seedFlag args
  if args.words ≠ [] ∨ args.value? configFlag = some "" then none
  return {
    count := count.getD 1
    maxLength := maxLength
    seed := seed.map UInt64.ofNat
    config := args.value? configFlag
    check := args.has checkFlag }

/-- Reads a command line; `none` if it is not one. A request for help or for the version is refused,
too, like any other word that is no command. -/
def ofWords? : List String → Option Command
  | [] => none
  | name :: rest =>
    if name = "table" then
      (Arguments.ofWords? [] rest).bind fun args =>
        if args.words = [] then some .table else none
    else if name = "parse" then
      (Arguments.ofWords? [jsonFlag] rest).bind fun args =>
        match args.words with
        | [sentence] => some (.parse sentence (args.has jsonFlag))
        | _ => none
    else if name = "generate" then
      (Arguments.ofWords? [countFlag, maxLengthFlag, seedFlag, configFlag, checkFlag] rest).bind
        fun args => (generateOptions? args).map .generate
    else if name = "derive" then
      (Arguments.ofWords? [] rest).bind fun args =>
        (args.words.mapM number?).map .derive
    else none

end Command

end Predictive
