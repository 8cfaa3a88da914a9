import Reckoner.Desk
import Reckoner.Main
import Reckoner.Report
import Reckoner.Proofs.Grammar.Productions
import Reckoner.Proofs.Rendering.Canonical
import Reckoner.Proofs.Evaluation
import Reckoner.Proofs.Grammar.Brackets
import Reckoner.Proofs.Grammar.Prefixes
import Reckoner.Proofs.Grammar.Failures
import Reckoner.Proofs.Formulas
import Reckoner.Proofs.Histories
import Reckoner.Proofs.Grammar.Substitution
import Reckoner.Proofs.Lexing.Partition
import Reckoner.Proofs.Walks
import Reckoner.Proofs.CommandLine
import Reckoner.Proofs.Grammar.Conservation
import Reckoner.Proofs.Lexing.Literals
import Reckoner.Proofs.Lexing.Offsets
import Reckoner.Proofs.Totals
import Reckoner.Proofs.Lockstep
import Reckoner.Proofs.Lexing.Layout
import Reckoner.Proofs.BindingRuns
import Reckoner.Proofs.Rendering.Brackets
import Reckoner.Proofs.Sharing
import Reckoner.Proofs.Grammar.Ownership
import Reckoner.Proofs.Rendering.Constants
import Reckoner.Proofs.Listings
import Reckoner.Proofs.Rendering.Stacks
import Reckoner.Proofs.Notes
import Reckoner.Proofs.Options
import Reckoner.Proofs.Number.Exceptional
