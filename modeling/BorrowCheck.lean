import BorrowCheck.Draft
import BorrowCheck.Handover
import BorrowCheck.Procedure
import BorrowCheck.Proofs.Outcome
import BorrowCheck.Settings
import BorrowCheck.Verdict
import BorrowCheck.Proofs.Step
import BorrowCheck.Proofs.Growth
import BorrowCheck.Proofs.Sound
import BorrowCheck.Proofs.Ends
import BorrowCheck.Proofs.Values
import BorrowCheck.Proofs.Run
import BorrowCheck.Proofs.InStep
import BorrowCheck.Proofs.Effects
import BorrowCheck.Proofs.Grounded
import BorrowCheck.Proofs.Conflict
import BorrowCheck.Proofs.Aliasing
import BorrowCheck.Proofs.Mutation
import BorrowCheck.Proofs.Dangling
import BorrowCheck.Proofs.Moves
import BorrowCheck.Proofs.Recorded
import BorrowCheck.Proofs.Judged
import BorrowCheck.Proofs.Outstanding
import BorrowCheck.Proofs.Holding
import BorrowCheck.Proofs.Liveness
import BorrowCheck.Proofs.WriteBehind
import BorrowCheck.Proofs.Usable
import BorrowCheck.Proofs.Spared
import BorrowCheck.Proofs.Frozen
import BorrowCheck.Proofs.Stored
import BorrowCheck.Proofs.Lacking
import BorrowCheck.Proofs.History
import BorrowCheck.Proofs.Renaming
import BorrowCheck.Proofs.Thinned
import BorrowCheck.Proofs.Passes
import BorrowCheck.Proofs.Lighter
import BorrowCheck.Proofs.Abreast
import BorrowCheck.Proofs.Omission
import BorrowCheck.Proofs.Indices
import BorrowCheck.Proofs.Copies
import BorrowCheck.Proofs.Lexical
import BorrowCheck.Proofs.Rejected
import BorrowCheck.Proofs.WellFormed
import BorrowCheck.Proofs.Parallel
import BorrowCheck.Proofs.Plain
import BorrowCheck.Proofs.Picked
import BorrowCheck.Proofs.Side
import BorrowCheck.Proofs.Alike
import BorrowCheck.Proofs.Beside
import BorrowCheck.Proofs.Independent
import BorrowCheck.Proofs.Truthful
import BorrowCheck.Proofs.Recast
import BorrowCheck.Proofs.RecastSurvey
import BorrowCheck.Proofs.RecastBooks
import BorrowCheck.Proofs.RecastWalk
import BorrowCheck.Proofs.RecastRun
import BorrowCheck.Proofs.Immaterial
import BorrowCheck.Proofs.Names
import BorrowCheck.Proofs.Turns
import BorrowCheck.Proofs.Reuse
import BorrowCheck.Proofs.Notes
import BorrowCheck.Proofs.Noted
import BorrowCheck.Proofs.Lexing
import BorrowCheck.Proofs.Derivation
import BorrowCheck.Proofs.Phrases
import BorrowCheck.Proofs.Recognition
import BorrowCheck.Proofs.Rendering
import BorrowCheck.Proofs.WellScoped
import BorrowCheck.Proofs.Disjoint
import BorrowCheck.Proofs.Cursor
import BorrowCheck.Proofs.Viable
import BorrowCheck.Proofs.Impossible
import BorrowCheck.Proofs.Faults
import BorrowCheck.Proofs.Forest
import BorrowCheck.Proofs.Unchanged
