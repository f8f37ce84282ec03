import OmegaAutomata.Fault
import OmegaAutomata.IndexSet.Basic
import OmegaAutomata.IndexSet.Lemmas
import OmegaAutomata.IndexSet.Order
import OmegaAutomata.WordSet
import OmegaAutomata.Counter
import OmegaAutomata.Label
import OmegaAutomata.Lasso
import OmegaAutomata.Word
import OmegaAutomata.Components
import OmegaAutomata.Product
import OmegaAutomata.Generalized.Basic
import OmegaAutomata.Generalized.Language
import OmegaAutomata.Generalized.Builder
import OmegaAutomata.Arena.State
import OmegaAutomata.Arena.Basic
import OmegaAutomata.Arena.Redirect
import OmegaAutomata.Arena.Subsumption
import OmegaAutomata.Arena.Classify
import OmegaAutomata.Arena.Merge
import OmegaAutomata.Arena.Identities
import OmegaAutomata.Automaton.Basic
import OmegaAutomata.Automaton.Language
import OmegaAutomata.Automaton.Minimize
import OmegaAutomata.Options
import OmegaAutomata.Degeneralize
import OmegaAutomata.Output.Chunks
import OmegaAutomata.Output.StateName
import OmegaAutomata.Output.NeverClaim
import OmegaAutomata.Output.Graph
import OmegaAutomata.Output.Listing
import OmegaAutomata.Json.Value
import OmegaAutomata.Json.Token
import OmegaAutomata.Json.Reader
import OmegaAutomata.Json.Layout
import OmegaAutomata.Json.Format
import OmegaAutomata.Json.Options
import OmegaAutomata.Json.Document
import OmegaAutomata.Output.Document
import OmegaAutomata.Proofs.Fallible
import OmegaAutomata.Proofs.WordSet.Bits
import OmegaAutomata.Proofs.WordSet.Operations
import OmegaAutomata.Proofs.WordSet.Questions
import OmegaAutomata.Proofs.WordSet.Iteration
import OmegaAutomata.Proofs.WordSet.Refinement
import OmegaAutomata.Proofs.System.Basic
import OmegaAutomata.Proofs.System.Merging
import OmegaAutomata.Proofs.Components.Invariant
import OmegaAutomata.Proofs.Components.Steps
import OmegaAutomata.Proofs.Components.Completion
import OmegaAutomata.Proofs.Components.Correct
import OmegaAutomata.Proofs.Product.Walks
import OmegaAutomata.Proofs.Product.Exploration
import OmegaAutomata.Proofs.Product.Cycles
import OmegaAutomata.Proofs.Product.Traces
import OmegaAutomata.Proofs.LassoAcceptance
import OmegaAutomata.Proofs.Arena.Lookup
import OmegaAutomata.Proofs.Arena.Graph
import OmegaAutomata.Proofs.Subsumption
import OmegaAutomata.Proofs.Entailment
import OmegaAutomata.Proofs.Arena.Rewiring
import OmegaAutomata.Proofs.Arena.Redirect
import OmegaAutomata.Proofs.Arena.Starvation
import OmegaAutomata.Proofs.Arena.Merge
import OmegaAutomata.Proofs.Arena.Classify
import OmegaAutomata.Proofs.Arena.Removal
import OmegaAutomata.Proofs.Arena.Renaming
import OmegaAutomata.Proofs.Arena.Identities
import OmegaAutomata.Proofs.Arena.Rest
import OmegaAutomata.Proofs.Arena.Visits
import OmegaAutomata.Proofs.Arena.Reachability
import OmegaAutomata.Proofs.Automaton.Language
import OmegaAutomata.Proofs.Automaton.Passes
import OmegaAutomata.Proofs.Generalized.Collected
import OmegaAutomata.Proofs.Degeneralize.Unfolding
import OmegaAutomata.Proofs.Degeneralize.Registered
import OmegaAutomata.Proofs.Degeneralize.References
import OmegaAutomata.Proofs.Degeneralize.Faithful
import OmegaAutomata.Proofs.Degeneralize.Building
import OmegaAutomata.Proofs.Degeneralize.Exploration
import OmegaAutomata.Proofs.Degeneralize.Turns
import OmegaAutomata.Proofs.Degeneralize.Language
import OmegaAutomata.Proofs.Degeneralize.Budget
import OmegaAutomata.Proofs.Arena.Bookkeeping
import OmegaAutomata.Proofs.Arena.Operations
import OmegaAutomata.Proofs.Degeneralize.Creation
import OmegaAutomata.Proofs.Degeneralize.Explored
import OmegaAutomata.Proofs.Degeneralize.Plain
import OmegaAutomata.Proofs.Degeneralize.Totality
import OmegaAutomata.Proofs.Automaton.Consistency
import OmegaAutomata.Proofs.Automaton.Totality
import OmegaAutomata.Proofs.Automaton.Renaming
import OmegaAutomata.Proofs.Automaton.Answers
import OmegaAutomata.Proofs.Minimization
import OmegaAutomata.Proofs.Consistency
import OmegaAutomata.Proofs.Totality
import OmegaAutomata.Proofs.Counting
import OmegaAutomata.Proofs.Pruning
import OmegaAutomata.Proofs.Idempotence
import OmegaAutomata.Proofs.Termination
import OmegaAutomata.Proofs.PlainProduct
import OmegaAutomata.Proofs.DisplayIds
import OmegaAutomata.Proofs.Arena.Filing
import OmegaAutomata.Proofs.Automaton.Parts
import OmegaAutomata.Proofs.Filing
import OmegaAutomata.Proofs.Document.Rebuild
import OmegaAutomata.Proofs.Document.Determines
import OmegaAutomata.Proofs.NormalForm
import OmegaAutomata.Proofs.Reachability
import OmegaAutomata.Proofs.Universal
import OmegaAutomata.Proofs.NeverClaim.Guards
import OmegaAutomata.Proofs.NeverClaim.Reader
import OmegaAutomata.Proofs.NeverClaim.Names
import OmegaAutomata.Proofs.NeverClaim.Blocks
import OmegaAutomata.Proofs.NeverClaim.Denotes
import OmegaAutomata.Proofs.Product.BreadthFirst
import OmegaAutomata.Proofs.Generalized.Keys
import OmegaAutomata.Proofs.Generalized.Calls
import OmegaAutomata.Proofs.Generalized.Checks
import OmegaAutomata.Proofs.Validation
import OmegaAutomata.Proofs.Json.Grammar
import OmegaAutomata.Proofs.Json.Lexing
import OmegaAutomata.Proofs.Json.Reading
import OmegaAutomata.Proofs.Json.Formats
import OmegaAutomata.Proofs.Document.Numbers
import OmegaAutomata.Proofs.RoundTrip
