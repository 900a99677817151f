import RecordFilter.Operator
import RecordFilter.Schema.Field

/-! Why a domain, a schema or a configuration is rejected: the causes, their codes and texts. -/

namespace RecordFilter

/-- Why a sequence of tokens is no domain. -/
inductive Malformation
  | unknownSymbol (symbol : String)
  | unexpectedToken (value : String)
  | notAList (value : String)
  | unbalanced (domain : String) (missing : Nat)
  | notBindable (value : String)
  | noOperands
  | surplusTokens
  | missingOperands
  | notOneCondition
deriving DecidableEq, Repr

/-- A malformation in words. -/
def Malformation.message : Malformation → String
  | unknownSymbol symbol => "unknown domain operator '" ++ symbol ++ "'"
  | unexpectedToken value => "unexpected domain token " ++ value
  | notAList value => "domain must be a list, got " ++ value
  | unbalanced domain missing =>
    "domain " ++ domain ++ " is not balanced: " ++ Nat.repr missing ++ " operand(s) missing"
  | notBindable value => value ++ " cannot be bound as a single SQL parameter"
  | noOperands => "operator without operands"
  | surplusTokens => "too many tokens after normalization"
  | missingOperands => "operator is missing operands"
  | notOneCondition => "domain did not reduce to a single condition"

/-- Why a leaf cannot be used. -/
inductive LeafFault
  | operatorNotText
  | unknownOperator (symbol : String)
  | constant
  | leftNotPath
  | notThreeItems
  | needsRelation (op : Operator)
  | subqueryOperator
  | needsList (op : Operator)
  | nested
  | needsScalar (op : Operator)
  | idsNotIntegers
  | neitherIdsNorNames
  | needsValue
  | notHierarchy
deriving DecidableEq, Repr

/-- A fault of a leaf in words. -/
def LeafFault.message : LeafFault → String
  | operatorNotText => "operator must be a string"
  | unknownOperator symbol => "unknown operator '" ++ symbol ++ "'"
  | constant => "invalid constant leaf"
  | leftNotPath => "left operand must be a field path"
  | notThreeItems => "leaf must have 3 items"
  | needsRelation op => op.symbol ++ " needs a relational field"
  | subqueryOperator => "a subquery can only be used with in / not in"
  | needsList op => op.symbol ++ " expects a list of values"
  | nested => "nested values are not allowed"
  | needsScalar op => op.symbol ++ " expects a single value"
  | idsNotIntegers => "ids must be integers"
  | neitherIdsNorNames => "expected ids or names"
  | needsValue => "translated fields take values"
  | notHierarchy => "not a hierarchy operator"

/-- What cannot be expressed in SQL. -/
inductive Unsupported
  | autoJoin (type : FieldType) (model field : String)
  | unstoredInverse (model field inverse : String)
  /-- A limit of a search hook. -/
  | other (message : String)
deriving DecidableEq, Repr

/-- A limit in words. -/
def Unsupported.message : Unsupported → String
  | autoJoin type model field => "auto_join on " ++ type.name ++ " field " ++ model ++ "." ++ field
  | unstoredInverse model field inverse =>
    "subquery on " ++ model ++ "." ++ field ++ " whose inverse " ++ inverse ++ " is not stored"
  | other message => message

/-- What a database can be asked for. -/
inductive Request
  | search
  | read
  | parentPaths
deriving DecidableEq, Repr

/-- A request in words. -/
def Request.name : Request → String
  | search => "search"
  | read => "read"
  | parentPaths => "parent path read"

/-- Why the database gave no answer. -/
inductive BackendFault
  | offline (request : Request) (model : String)
  | badParentPath (model : String) (id : Int) (path : String)
  | other (message : String)
deriving DecidableEq, Repr

/-- A fault of the database in words. -/
def BackendFault.message : BackendFault → String
  | offline request model => request.name ++ " on " ++ model ++ " needs a database connection"
  | badParentPath model id path =>
    model ++ " record " ++ toString id ++ " has a malformed parent_path '" ++ path ++ "'"
  | other message => message

/-- Why a field does not fit the other models. -/
inductive FieldFault
  | noComodel
  | unknownComodel (comodel : String)
  | noInverseName
  | noInverse (comodel inverse : String)
  | noRelation
  | badIdentifier (name : String)
  | notTranslatable
deriving DecidableEq, Repr

/-- A fault of a field in words. -/
def FieldFault.message : FieldFault → String
  | noComodel => "relational field without comodel"
  | unknownComodel comodel => "unknown comodel " ++ comodel
  | noInverseName => "one2many without inverse_name"
  | noInverse comodel inverse => "inverse field " ++ comodel ++ "." ++ inverse ++ " does not exist"
  | noRelation => "many2many without relation table"
  | badIdentifier name => "invalid identifier '" ++ name ++ "'"
  | notTranslatable => "only text fields can be translated"

/-- Why models do not make up a schema. -/
inductive SchemaFault
  | badModelName (model : String)
  | badTable (model table : String)
  | duplicate (model : String)
  | badFieldName (model field : String)
  | noComodel (field : String)
  | badField (model field : String) (fault : FieldFault)
  | badDelegation (model parent link : String)
  | noParentField (model parentName : String)
  | noInverse (model field inverse comodel : String)
  | noInverseName (model field : String)
  | noRelation (model field : String)
  | noDirectory (directory : String)
  | unlisted (directory reason : String)
  | badEntry (reason : String)
  | unreadable (path reason : String)
  | notJson (path reason : String)
  | file (path : String) (fault : SchemaFault)
deriving DecidableEq, Repr

/-- A fault of a schema in words. -/
def SchemaFault.message : SchemaFault → String
  | badModelName model => "invalid model name '" ++ model ++ "'"
  | badTable model table => "model " ++ model ++ " has invalid table name '" ++ table ++ "'"
  | duplicate model => "model " ++ model ++ " is already registered"
  | badFieldName model field => "model " ++ model ++ " has invalid field name '" ++ field ++ "'"
  | noComodel field => "field " ++ field ++ " has no comodel"
  | badField model field fault => "field " ++ model ++ "." ++ field ++ ": " ++ fault.message
  | badDelegation model parent link =>
    "model " ++ model ++ " delegates to " ++ parent ++ " through '" ++ link
      ++ "', which is not a many2one"
  | noParentField model parentName =>
    "model " ++ model ++ " stores parent paths without a '" ++ parentName ++ "' field"
  | noInverse model field inverse comodel =>
    model ++ "." ++ field ++ " has no inverse field " ++ inverse ++ " on " ++ comodel
  | noInverseName model field => "one2many " ++ model ++ "." ++ field ++ " has no inverse_name"
  | noRelation model field => model ++ "." ++ field ++ " has no relation table"
  | noDirectory directory => "schema directory " ++ directory ++ " does not exist"
  | unlisted directory reason => "failed to read " ++ directory ++ ": " ++ reason
  | badEntry reason => "failed to read directory entry: " ++ reason
  | unreadable path reason => path ++ ": failed to read file: " ++ reason
  | notJson path reason => path ++ ": invalid JSON: " ++ reason
  | file path fault => path ++ ": Schema error: " ++ fault.message

/-- Why a configuration is rejected. -/
inductive ConfigFault
  | badLang (lang : String)
  | noIterations
  | badAttachmentTable (table : String)
  | unknownSeverity (level : String)
  | unreadable (reason : String)
  | notJson (reason : String)
deriving DecidableEq, Repr

/-- A fault of a configuration in words. -/
def ConfigFault.message : ConfigFault → String
  | badLang lang => "Invalid lang: '" ++ lang ++ "'"
  | noIterations => "hierarchy_max_iterations must be > 0"
  | badAttachmentTable table => "Invalid attachment_table: '" ++ table ++ "'"
  | unknownSeverity level => "unknown severity '" ++ level ++ "'"
  | unreadable reason => "Failed to read config: " ++ reason
  | notJson reason => "Invalid config JSON: " ++ reason

/-- Why a request on domains fails. -/
inductive Error
  | malformed (fault : Malformation)
  | invalidLeaf (leaf : String) (fault : LeafFault)
  | invalidField (model field leaf : String)
  | unknownModel (model : String)
  | unsupported (limit : Unsupported)
  | hierarchyLimit (model : String) (limit : Nat)
  | backend (fault : BackendFault)
  | schema (fault : SchemaFault)
  | config (fault : ConfigFault)
deriving DecidableEq, Repr

namespace Error

/-- An error in words. -/
def message : Error → String
  | malformed fault => "Malformed domain: " ++ fault.message
  | invalidLeaf leaf fault => "Invalid leaf " ++ leaf ++ ": " ++ fault.message
  | invalidField model field leaf =>
    "Invalid field " ++ model ++ "." ++ field ++ " in leaf " ++ leaf
  | unknownModel model => "Unknown model: " ++ model
  | unsupported limit => "Unsupported: " ++ limit.message
  | hierarchyLimit model limit =>
    "Hierarchy walk on " ++ model ++ " exceeded " ++ Nat.repr limit ++ " iterations"
  | backend fault => "Backend error: " ++ fault.message
  | schema fault => "Schema error: " ++ fault.message
  | config fault => "Config error: " ++ fault.message

/-- The code of an error. -/
def code : Error → String
  | malformed _ => "AERO_DOMAIN_MALFORMED"
  | invalidLeaf _ _ => "AERO_DOMAIN_INVALID_LEAF"
  | invalidField _ _ _ => "AERO_DOMAIN_INVALID_FIELD"
  | unknownModel _ => "AERO_DOMAIN_UNKNOWN_MODEL"
  | unsupported _ => "AERO_DOMAIN_UNSUPPORTED"
  | hierarchyLimit _ _ => "AERO_DOMAIN_HIERARCHY_LIMIT"
  | backend _ => "AERO_DOMAIN_BACKEND"
  | schema _ => "AERO_DOMAIN_SCHEMA"
  | config _ => "AERO_DOMAIN_CONFIG"

/-- Structural errors lie in the domain itself and not in the schema or the database. -/
def isStructural : Error → Bool
  | malformed _ | invalidLeaf _ _ | invalidField _ _ _ | unknownModel _ => true
  | _ => false

end Error

end RecordFilter
