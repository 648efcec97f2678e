import Authorization.Engine.View
import Authorization.Json.Reader
import Authorization.Main
import Authorization.Proofs.Resolution.Decision
import Authorization.Proofs.Sql.Tokens
import Authorization.Proofs.Sql.Expressions
import Authorization.Proofs.Sql.Rows
import Authorization.Proofs.Sql.Selection
import Authorization.Proofs.Catalogue.Chains
import Authorization.Proofs.Condition.Binding
import Authorization.Proofs.Engine.Enforcement
import Authorization.Proofs.Engine.Use
import Authorization.Proofs.Grant.Writing
import Authorization.Proofs.Policy.Defaults
import Authorization.Proofs.Policy.Interfaces
import Authorization.Proofs.Policy.Redundancy
import Authorization.Proofs.Resolution.Database
import Authorization.Proofs.Resolution.Computed
import Authorization.Proofs.Resolution.Monotonicity
import Authorization.Proofs.Permission.Alike
import Authorization.Proofs.Grant.Reordering
import Authorization.Proofs.Policy.Alike
import Authorization.Proofs.Policy.Reordering
import Authorization.Proofs.Resolution.Order
import Authorization.Proofs.Engine.Securing
import Authorization.Proofs.Grant.Variants
import Authorization.Proofs.Policy.Powers
import Authorization.Proofs.Resolution.Powers
import Authorization.Proofs.Condition.Reordering
import Authorization.Proofs.Simplification.Tidy
import Authorization.Proofs.Simplification.Grouping
import Authorization.Proofs.Simplification.Reordering
import Authorization.Proofs.Engine.Statements
import Authorization.Proofs.Simplification.Settling
import Authorization.Proofs.Simplification.Cascades
import Authorization.Proofs.Policy.Search
import Authorization.Proofs.Grant.Steps
import Authorization.Proofs.Policy.Extent
import Authorization.Proofs.Policy.Relations
import Authorization.Proofs.Policy.Memberships
import Authorization.Proofs.Engine.Flags
import Authorization.Proofs.Condition.Finality
import Authorization.Proofs.Condition.Joining
import Authorization.Proofs.Cypher.Reading
import Authorization.Proofs.Cypher.Graphs
import Authorization.Proofs.Cypher.Tokens
import Authorization.Proofs.Cypher.Expressions
import Authorization.Proofs.Cypher.Nodes
import Authorization.Proofs.Cypher.Selection
import Authorization.Proofs.Condition.Leaves
import Authorization.Proofs.Text.Pieces
import Authorization.Proofs.Cypher.Naming
import Authorization.Proofs.Sql.Placeholders
import Authorization.Proofs.RowSecurity.Lexemes
import Authorization.Proofs.RowSecurity.Computed
import Authorization.Proofs.RowSecurity.Quoting
import Authorization.Proofs.Simplification.Passes
import Authorization.Proofs.Simplification.Leaves
import Authorization.Proofs.Engine.Optimizing
import Authorization.Proofs.Engine.Listing
