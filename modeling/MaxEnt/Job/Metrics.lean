import MaxEnt.Evaluation.Basic
import MaxEnt.Json.Basic

namespace MaxEnt

structure Metrics where
  train : Evaluation Float
  outcomes : Distribution

namespace Metrics

def number (x : Float) : Json := .real (.ofFloat x)

def figures (f : Figures Float) : Json :=
  .object [("precision", number f.precision), ("recall", number f.coverage), ("f1-score", number f.f1),
    ("support", .real (.ofInt f.support))]

def entry : ReportEntry Float → Json
  | .figures f => figures f
  | .accuracy a => number a

def counts (ns : List Nat) : Json := .array (ns.map fun (n : Nat) => .int n)

def evaluation (e : Evaluation Float) : Json :=
  .object [("accuracy", number e.accuracy), ("f1_score", number e.f1),
    ("confusion_matrix", .array (e.confusion.map counts)), ("labels", .ofTexts e.labels),
    ("classification_report", .ofTable (e.report.map entry)), ("total_events", .int e.total)]

def distribution (d : Distribution) : Json :=
  .object [("total", .int d.total),
    ("counts", .object (d.counts.map fun (label, n) => (label, .int n))),
    ("percentages", .object ((d.percentages Float).map fun (label, x) => (label, number x)))]

def json (m : Metrics) : Json :=
  .object [("train", evaluation m.train), ("outcome_distribution", distribution m.outcomes)]

end Metrics

end MaxEnt
