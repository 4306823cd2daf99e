import StyleWeave.Config.Json
import StyleWeave.Config.Toml.Document
import StyleWeave.Options.Decode

/-!
# Options from configuration texts

A TOML text holds either one bundle of options or several named profiles, one table each. Options
in TOML are validated, and options in JSON are taken as they are.
-/

namespace StyleWeave.Options

open Config

/-- The name of the profile used when none is asked for. -/
def defaultProfile : String := "default"

/-- Names at the top of a document that make it one bundle of options, even if it holds nothing but
tables. -/
def bundleNames : List String := ["dialect", "define", "aliases"]

/-- A document is a set of profiles if it holds tables and nothing else, and none of the tables
that belong to options. -/
def isProfileSet (document : List (String × Datum)) : Bool :=
  !document.isEmpty && document.all (fun e => e.2.isMap) &&
    !document.any fun e => bundleNames.contains e.1

/-- The options that a datum describes. -/
def ofDatum (d : Datum) : Except Failure Options :=
  match ofDatum? d with
  | some options => .ok options
  | none => .error (.serialization "invalid options")

/-- The options of a profile, or the only ones, in a document. -/
def select (document : List (String × Datum)) (profile : Option String) :
    Except Failure Options :=
  if isProfileSet document then
    let name := profile.getD defaultProfile
    match document.lookup name with
    | some d => ofDatum d
    | none => .error (.config ("profile '" ++ name ++ "' not found. Available: " ++
        ", ".intercalate (Dictionary.ofList document).keys))
  else
    match profile.filter (· != defaultProfile) with
    | some name => .error (.config ("profile '" ++ name ++
        "' requested but the config has no profiles"))
    | none => ofDatum (.map document)

/-- The valid options that a TOML text describes. -/
def ofToml (text : String) (profile : Option String) : Except Failure Options := do
  match Toml.read? text with
  | none => .error (.serialization "invalid TOML")
  | some document => do
    let options ← select document profile
    options.validate
    return options

/-- The options that a JSON text describes. -/
def ofJson (text : String) : Except Failure Options :=
  match Json.read? text with
  | none => .error (.serialization "invalid JSON")
  | some d => ofDatum d

end StyleWeave.Options
