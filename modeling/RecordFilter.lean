import RecordFilter.Main
import RecordFilter.Files.Tree
import RecordFilter.Schema.Summary
import RecordFilter.Proofs.Domain.Inward
import RecordFilter.Proofs.Compile.Recursion
import RecordFilter.Proofs.Compile.Stacks
import RecordFilter.Proofs.Compile.PlainLeaves
import RecordFilter.Proofs.Compile.PlainDomains
import RecordFilter.Proofs.Compile.EmptySets
import RecordFilter.Proofs.Compile.Routes
import RecordFilter.Proofs.Compile.Aliases
import RecordFilter.Proofs.Compile.AlikeDomains
import RecordFilter.Proofs.Sql.Conditions
import RecordFilter.Proofs.Compile.Balance
import RecordFilter.Proofs.Compile.Complements
import RecordFilter.Proofs.Compile.RetainedNot
import RecordFilter.Proofs.Compile.NegatedPaths
import RecordFilter.Proofs.Compile.Columns
import RecordFilter.Proofs.Compile.Crossing
import RecordFilter.Proofs.Compile.JoinedPaths
import RecordFilter.Proofs.Compile.Delegation
import RecordFilter.Proofs.Compile.Asking
import RecordFilter.Proofs.Compile.Finishing
import RecordFilter.Proofs.Compile.Metadata
import RecordFilter.Proofs.Compile.Forests
import RecordFilter.Proofs.Compile.Hierarchies
import RecordFilter.Proofs.Domain.Grammar
import RecordFilter.Proofs.Compile.Databases
import RecordFilter.Proofs.Compile.InUse
import RecordFilter.Proofs.Compile.Filtering
import RecordFilter.Proofs.Compile.UnknownFields
import RecordFilter.Proofs.Compile.Comparisons
import RecordFilter.Proofs.Domain.JsonForm
import RecordFilter.Proofs.Schema.Registering
import RecordFilter.Proofs.Compile.StoredColumns
import RecordFilter.Proofs.Compile.JoinOrder
import RecordFilter.Proofs.Schema.RoundTrip
import RecordFilter.Proofs.Compile.Privileges
import RecordFilter.Proofs.Compile.Grouping
import RecordFilter.Proofs.Compile.Memberships
import RecordFilter.Proofs.Compile.Negations
import RecordFilter.Proofs.Compile.StoredPaths
import RecordFilter.Proofs.Compile.Levels
import RecordFilter.Proofs.Domain.Occurrences
import RecordFilter.Proofs.Domain.Combining
import RecordFilter.Proofs.Compile.TranslatedColumns
import RecordFilter.Proofs.Schema.Ancestors
import RecordFilter.Proofs.Compile.NameSearches
import RecordFilter.Proofs.Compile.NameLeaves
import RecordFilter.Proofs.Calendar.Dates
import RecordFilter.Proofs.Compile.Days
import RecordFilter.Proofs.Compile.Refusals
import RecordFilter.Proofs.Schema.Loading
import RecordFilter.Proofs.Compile.BoundValues
import RecordFilter.Proofs.Log.Lines
import RecordFilter.Proofs.Sql.Quoting
import RecordFilter.Proofs.Compile.AliasLengths
