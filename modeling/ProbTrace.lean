import ProbTrace.Inference
import ProbTrace.Main
import ProbTrace.Proofs.ReadOnly
import ProbTrace.Proofs.Account
import ProbTrace.Proofs.Comparison
import ProbTrace.Proofs.Programmed
import ProbTrace.Proofs.Transparency
import ProbTrace.Proofs.Conditioning
import ProbTrace.Proofs.Disagreement
import ProbTrace.Proofs.Faults
import ProbTrace.Proofs.Relevance
import ProbTrace.Proofs.Position
import ProbTrace.Proofs.Replay
import ProbTrace.Proofs.Contract
import ProbTrace.Proofs.Upkeep
import ProbTrace.Proofs.Reading
import ProbTrace.Proofs.Acceptance
import ProbTrace.Proofs.Integrity
import ProbTrace.Proofs.Isolation
import ProbTrace.Proofs.Particles
import ProbTrace.Proofs.Grammar
import ProbTrace.Proofs.Matching
import ProbTrace.Proofs.Locality
import ProbTrace.Proofs.Reporting
import ProbTrace.Proofs.Printing
import ProbTrace.Proofs.Editing
import ProbTrace.Proofs.Enumeration
import ProbTrace.Proofs.Freezing
import ProbTrace.Proofs.Resolution
import ProbTrace.Proofs.Shadowing
import ProbTrace.Proofs.Equivalence
import ProbTrace.Proofs.Quotation
import ProbTrace.Proofs.Extent
import ProbTrace.Proofs.Conversion
import ProbTrace.Proofs.Logarithm
import ProbTrace.Proofs.Rejection
import ProbTrace.Proofs.Support
