import ConfigAudit.Findings.Basic
import ConfigAudit.Findings.Score
import ConfigAudit.Findings.Timestamp

/-!
# Scan results

The findings of an evaluation with their score and the time of the scan.
-/

namespace ConfigAudit

/-- The result of a scan; the score is the share of passed findings in percent. -/
structure ScanResult where
  score : UInt8
  violations : List Finding
  warnings : List Finding
  passed : List Finding
  scannedAt : Timestamp
  deriving DecidableEq, Repr

namespace ScanResult

/-- The result of an evaluation made at a time. -/
def ofEvaluation (e : Evaluation) (scannedAt : Timestamp) : ScanResult :=
  { score := ConfigAudit.score (UInt64.ofNat e.passed.length) (UInt64.ofNat e.total)
    violations := e.violations
    warnings := e.warnings
    passed := e.passed
    scannedAt }

/-- The number of findings. -/
def total (r : ScanResult) : Nat := r.violations.length + r.warnings.length + r.passed.length

/-- Whether any rule is broken. -/
def hasViolations (r : ScanResult) : Bool := !r.violations.isEmpty

/-- The JSON form of a result. -/
def toJson (r : ScanResult) : Json :=
  .object [("score", .int r.score.toNat),
    ("violations", Evaluation.collectionJson r.violations),
    ("warnings", Evaluation.collectionJson r.warnings),
    ("passed", Evaluation.collectionJson r.passed),
    ("scanned_at", .string r.scannedAt.render)]

end ScanResult

end ConfigAudit
