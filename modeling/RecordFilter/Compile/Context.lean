import RecordFilter.Config

/-! The settings of one compilation. -/

namespace RecordFilter

/-- What a compilation takes from the configuration. -/
structure Context where
  lang : String
  unaccent : Bool
  activeTest : Bool
  maxIterations : Nat
  attachmentTable : String
deriving DecidableEq, Repr

namespace Context

/-- The settings of a configuration. -/
def ofConfig (c : Config) : Context :=
  { lang := c.lang, unaccent := c.unaccent, activeTest := c.activeTest
    maxIterations := c.maxIterations, attachmentTable := c.attachmentTable }

end Context

end RecordFilter
