import GraphAccess.Change.ChangeSet
import GraphAccess.Profile.Declaration
import GraphAccess.Retrieval.Query
import GraphAccess.Proofs.Profile.Built
import GraphAccess.Proofs.Membership.Descent
import GraphAccess.Proofs.Membership.Selection
import GraphAccess.Proofs.Compilation.Termination
import GraphAccess.Proofs.Compilation.Walk
import GraphAccess.Proofs.Membership.FirstOffence
import GraphAccess.Proofs.Sparql.Lexeme
import GraphAccess.Proofs.Sparql.Group
import GraphAccess.Proofs.Sparql.Solution
import GraphAccess.Proofs.Update.Decoding
import GraphAccess.Proofs.Retrieval.QueryText
import GraphAccess.Proofs.Retrieval.FirstOffence
import GraphAccess.Proofs.Retrieval.Origin
import GraphAccess.Proofs.Retrieval.Readable
import GraphAccess.Proofs.Retrieval.Leaves
import GraphAccess.Proofs.Retrieval.Matched
import GraphAccess.Proofs.Retrieval.SharedTemplate
import GraphAccess.Proofs.Profile.Validity
import GraphAccess.Proofs.Change.History
import GraphAccess.Proofs.Change.Merging
import GraphAccess.Proofs.Retrieval.VariableUse
import GraphAccess.Proofs.Retrieval.Grammatical
import GraphAccess.Proofs.Retrieval.Admission
import GraphAccess.Proofs.Compilation.Extension
import GraphAccess.Proofs.Compilation.Resolution
import GraphAccess.Proofs.Change.AddedGraph
import GraphAccess.Proofs.Sparql.Occurrence
import GraphAccess.Proofs.Membership.Identity
import GraphAccess.Proofs.Change.Creation
import GraphAccess.Proofs.Change.Nesting
import GraphAccess.Proofs.Change.BlankNodes
import GraphAccess.Proofs.Update.Layout
import GraphAccess.Proofs.Change.Summary
import GraphAccess.Proofs.Sparql.Delimiting
