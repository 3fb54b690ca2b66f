import IndexSync.Value.Order
import IndexSync.SortedMap
import IndexSync.DataError
import IndexSync.Text.Blank
import IndexSync.Text.Alphanumeric
import IndexSync.PropertyType.Parser
import IndexSync.TypeDef
import IndexSync.Schema.Basic
import IndexSync.EntityRef
import IndexSync.Path.Parser
import IndexSync.Path.Elaborate
import IndexSync.Declarations
import IndexSync.Mapping.Error
import IndexSync.Mapping.Trigger
import IndexSync.Mapping.Compile
import IndexSync.Dirty.PathTable
import IndexSync.ChangeTree.Findings
import IndexSync.ChangeTree.Layout
import IndexSync.ChangeTree.Walk
import IndexSync.ChangeTree.Text
import IndexSync.Plan
import IndexSync.Json.Double
import IndexSync.Json.Printer
import IndexSync.Json.Reader
import IndexSync.File.Read
import IndexSync.Report
import IndexSync.Workload
import IndexSync.Sample.Shop
import IndexSync.Sample.Categories
import IndexSync.Sample.Spouses
import IndexSync.Sample.Catalog
import IndexSync.Sample.Couple
import IndexSync.Sample.Rankings
import IndexSync.Main
import IndexSync.Proofs.Schema.Inheritance
import IndexSync.Proofs.Schema.Acceptance
import IndexSync.Proofs.Leads
import IndexSync.Proofs.Change.Documents
import IndexSync.Proofs.Tree.Depth
import IndexSync.Proofs.Tree.Telling
import IndexSync.Proofs.Tree.Lines
import IndexSync.Proofs.Change.Total
import IndexSync.Proofs.Change.Answered
import IndexSync.Proofs.Change.Filters
import IndexSync.Proofs.Change.Additive
import IndexSync.Proofs.Change.Deletion
import IndexSync.Proofs.Walk.Expansion
import IndexSync.Proofs.Tree.Explained
import IndexSync.Proofs.Walk.AnyOrder
import IndexSync.Proofs.Answers
import IndexSync.Proofs.Plan.Works
import IndexSync.Proofs.Plan.Events
import IndexSync.Proofs.Plan.Calls
import IndexSync.Proofs.Plan.Deletions
import IndexSync.Proofs.Plan.Postponed
import IndexSync.Proofs.Path.Names
import IndexSync.Proofs.Mapping.Inverses
import IndexSync.Proofs.Plan.Interleaving
import IndexSync.Proofs.History
import IndexSync.Proofs.Mapping.Within
import IndexSync.Proofs.Change.Order
import IndexSync.Proofs.Change.Changeable
import IndexSync.Proofs.Change.Pruning
import IndexSync.Sample.Teams
import IndexSync.Sample.Seats
import IndexSync.Sample.Desks
import IndexSync.Sample.Shelves
import IndexSync.Sample.Clubs
import IndexSync.Proofs.File.Defaults
import IndexSync.Proofs.File.PropertyTypes
import IndexSync.Proofs.File.TypeSyntax
import IndexSync.Proofs.File.Loading
import IndexSync.Proofs.File.Malformed
import IndexSync.Proofs.Json.Printed
import IndexSync.Proofs.File.RoundTrip
import IndexSync.Proofs.Schema.Chains
import IndexSync.Proofs.Schema.Memo
import IndexSync.Proofs.Schema.Lookups
import IndexSync.Proofs.Store.Writes
import IndexSync.Proofs.Store.Ids
import IndexSync.Sample.Boxes
import IndexSync.Proofs.Store.Identity
import IndexSync.Proofs.Store.Push
import IndexSync.Sample.Annexes
import IndexSync.Proofs.Path.Written
import IndexSync.Proofs.Path.Spelled
import IndexSync.Proofs.Path.Below
import IndexSync.Proofs.Path.Grammar
import IndexSync.Proofs.Path.Faults
import IndexSync.Proofs.Mapping.InverseTable
import IndexSync.Proofs.Mapping.Recursion
import IndexSync.Proofs.Mapping.Inlining
import IndexSync.Proofs.Store.InPlace
import IndexSync.Proofs.Store.Atomicity
import IndexSync.Sample.Parties
import IndexSync.Proofs.Tree.Arrivals
import IndexSync.Proofs.Tree.Relevance
import IndexSync.Proofs.Tree.WellFormed
import IndexSync.Proofs.Dirty.Words
import IndexSync.Proofs.Dirty.Numbering
