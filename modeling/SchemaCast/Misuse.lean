namespace SchemaCast

/-- The options that reach into the members of a container. -/
inductive MemberOption where
  | keys
  | values
  | entries
  deriving DecidableEq

namespace MemberOption

def name : MemberOption → String
  | keys => "keys"
  | values => "values"
  | entries => "entries"

/-- The types that may have the option, as a message lists them. -/
def allowedTypes : MemberOption → String
  | values => "list, record, set and map"
  | keys | entries => "record and map"

end MemberOption

/-- Why a source holds no schema. -/
inductive Defect where
  | unreadableDirectory
  | unreadableFile
  | invalidDocument
  | emptyName
  | exclusiveTypes
  | missingType
  deriving DecidableEq

namespace Defect

def message : Defect → String
  | unreadableDirectory => "Failed to read schema directory"
  | unreadableFile => "Failed to read file"
  | invalidDocument => "Invalid document"
  | emptyName => "Schema name is empty"
  | exclusiveTypes => "Options \"type\" and \"any_of\" are exclusive"
  | missingType => "Option \"type\" is required"

end Defect

/-- A schema that makes no sense, or a name that is unknown or taken. -/
inductive Misuse where
  | notCastable (type : String)
  | unsupportedOption (option : MemberOption) (type : String)
  | conflictingOptions
  | duplicateType (name : String)
  | unknownType (name : String)
  | duplicateValidator (name : String)
  | unknownValidator (name : String)
  | duplicateSchema (name : String)
  | unknownSchema (name : String)
  | malformed (source : String) (defect : Defect)
  deriving DecidableEq

namespace Misuse

def message : Misuse → String
  | notCastable type => "Type " ++ type ++ " does not support casting."
  | unsupportedOption option type =>
    "Option \"" ++ option.name ++ "\" is allowed only on " ++ option.allowedTypes ++ ", " ++
      type ++ " given."
  | conflictingOptions =>
    "Options \"values\" and \"entries\" cannot be declared on the same schema."
  | duplicateType name => "Type \"" ++ name ++ "\" is already registered."
  | unknownType name => "Type \"" ++ name ++ "\" is not registered."
  | duplicateValidator name => "Validator \"" ++ name ++ "\" is already registered."
  | unknownValidator name => "Validator \"" ++ name ++ "\" is not registered."
  | duplicateSchema name => "Schema \"" ++ name ++ "\" is already loaded."
  | unknownSchema name => "Schema \"" ++ name ++ "\" is not loaded."
  | malformed source defect => "Malformed schema '" ++ source ++ "': " ++ defect.message

end Misuse

end SchemaCast
