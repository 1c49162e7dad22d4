import Clausal.Main
import Clausal.Proofs.Instance
import Clausal.Proofs.Traversal
import Clausal.Proofs.Renaming
import Clausal.Proofs.Rounds
import Clausal.Proofs.Unification
import Clausal.Proofs.Session
import Clausal.Proofs.Runs
import Clausal.Proofs.Variants
import Clausal.Proofs.Schedule
import Clausal.Proofs.StandardizedApart
import Clausal.Proofs.Inference
import Clausal.Proofs.RoundOutcome
import Clausal.Proofs.Interpretation
import Clausal.Proofs.Hereditary
import Clausal.Proofs.Soundness
import Clausal.Proofs.Closure
import Clausal.Proofs.PositiveResolution
import Clausal.Proofs.Completeness
import Clausal.Proofs.Duplicates
import Clausal.Proofs.DerivationOrder
import Clausal.Proofs.Provenance
import Clausal.Proofs.Copies
import Clausal.Proofs.Ground
import Clausal.Proofs.Spelling
import Clausal.Proofs.Grammar
import Clausal.Proofs.Descent
import Clausal.Proofs.FirstFault
import Clausal.Proofs.Reports
import Clausal.Proofs.PlainNames
import Clausal.Proofs.Enumeration
import Clausal.Proofs.Walked
import Clausal.Proofs.Reproducible
import Clausal.Proofs.SolvedForm
import Clausal.Proofs.Chains
import Clausal.Proofs.Symmetry
import Clausal.Proofs.Unopposed
import Clausal.Proofs.History
import Clausal.Proofs.Resumption
import Clausal.Proofs.InPlace
import Clausal.Proofs.RenamingWalk
import Clausal.Proofs.BaseNames
import Clausal.Proofs.TextOrder
import Clausal.Proofs.StableKeys
import Clausal.Proofs.TwoPasses
import Clausal.Proofs.Drawing
import Clausal.Proofs.WorkList
