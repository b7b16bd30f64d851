import Mathlib.Data.List.Basic

/-!
# Variables with metrics data

The part of `bvar::Variable` that exports a variable as a Prometheus metric: its name, type,
description and labels.  A setter returns whether it succeeded, where the source returns 0 or -1.
-/

namespace McBrpc

/-- `metrics_data_t`. -/
inductive MetricsDataType where
  | gauge
  | summary
  | counter
  | histogram
  deriving DecidableEq

/-- `MetricsTypeToStr`. -/
def MetricsDataType.toStr : MetricsDataType → String
  | gauge => "gauge"
  | summary => "summary"
  | counter => "counter"
  | histogram => "histogram"

/-- The loop of `to_underscored_name`, with the name so far and the character before the rest. -/
def underscored (name : List Char) (previous : Option Char) : List Char → List Char
  | [] => name
  | char :: rest =>
    let separated := if name.getLast? = some '_' then name else name ++ ['_']
    let extended :=
      if char.isUpper then
        (if previous.any (!·.isUpper) then separated else name) ++ [char.toLower]
      else if char.isLower || char.isDigit then name ++ [char]
      else separated
    underscored extended (some char) rest

/-- `to_underscored_name` into an empty string. -/
def toUnderscoredName (src : String) : String := String.ofList (underscored [] none src.toList)

/-- The members of a `Variable` that concern metrics; `exposed` says that it has a name. -/
structure MetricVariable where
  exposed : Bool
  metricsName : String
  metricsType : MetricsDataType
  metricsDesc : String
  metricsLabels : List (String × String)

namespace MetricVariable

def new : MetricVariable := ⟨false, "", .gauge, "", []⟩

/-- `expose`, given whether the name is free. -/
def expose (free : Bool) (var : MetricVariable) : Bool × MetricVariable :=
  (free, { var with exposed := free })

def setMetricsName (name : String) (type : MetricsDataType) (var : MetricVariable) :
    Bool × MetricVariable :=
  if name = "" ∨ var.exposed = false then (false, var)
  else (true, { var with metricsName := toUnderscoredName name, metricsType := type })

def setMetricsDesc (desc : String) (var : MetricVariable) : Bool × MetricVariable :=
  if desc = "" ∨ var.metricsName = "" then (false, var)
  else (true, { var with metricsDesc := desc })

def setMetricsLabel (label : String × String) (var : MetricVariable) : Bool × MetricVariable :=
  if label.1 = "" ∨ label.2 = "" ∨ var.metricsName = "" then (false, var)
  else (true, { var with metricsLabels := var.metricsLabels ++ [label] })

/-- A loop of `set_metrics_label` calls, and whether all of them succeed. -/
def setMetricsLabels (labels : List (String × String)) (var : MetricVariable) :
    Bool × MetricVariable :=
  labels.foldl
    (fun state label =>
      let next := setMetricsLabel label state.2
      (state.1 && next.1, next.2))
    (true, var)

end MetricVariable
end McBrpc
