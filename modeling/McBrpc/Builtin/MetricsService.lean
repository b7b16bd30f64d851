import McBrpc.Bvar.Variable
import McBrpc.Library.OrderedMap
import Mathlib.Data.List.Infix
import Mathlib.Data.List.Sort
import Mathlib.Data.String.Basic

/-!
# The metrics page

`MetricsService` writes the exposed metric variables as text.  For the failure and timeout metrics
of channels, servers and calls it also writes zero samples: one for the reduced labels of each
sample of the matching total that the metric itself lacks.
-/

namespace McBrpc

abbrev LabelPairs := List (String × String)

structure MetricsMsg where
  name : String
  desc : String
  labels : LabelPairs
  type : MetricsDataType

structure BvarMsg where
  bname : String
  val : String
  msg : MetricsMsg
  isPlaceholder : Bool

/-- The arguments of a call of `dump_metrics`. -/
structure DumpedVariable where
  name : String
  description : String
  msg : MetricsMsg

/-- The `BvarMsg` that `dump_metrics` makes. -/
def DumpedVariable.bvarMsg (var : DumpedVariable) : BvarMsg :=
  ⟨var.name, var.description, var.msg, false⟩

abbrev MsgMap := OrderedMap String (List BvarMsg)

def dumpMetrics (content : MsgMap) (var : DumpedVariable) : MsgMap :=
  content.alter var.msg.name fun array => some (array.getD [] ++ [var.bvarMsg])

structure ServiceFlags where
  channelMetricsName : String
  channelMetricsDesc : String
  serverMetricsName : String
  serverMetricsDesc : String
  callMetricsName : String
  callMetricsDesc : String
  enableLogicFailMetrics : Bool
  enableServerMetricsWithFip : Bool

/-- A line of the page: a description, a type, a sample of a variable or a zero sample. -/
inductive MetricsLine where
  | help (name desc : String)
  | type (name : String) (kind : MetricsDataType)
  | item (name : String) (labels : LabelPairs) (val : String)
  | zero (name : String) (labels : LabelPairs)
  deriving DecidableEq

/-- The loop that writes labels, up to the closing brace. -/
def writeLabels : LabelPairs → String
  | [] => ""
  | [label] => label.1 ++ "=\"" ++ label.2 ++ "\"" ++ "\x7d"
  | label :: labels => label.1 ++ "=\"" ++ label.2 ++ "\"" ++ "," ++ writeLabels labels

def MetricsLine.write : MetricsLine → String
  | .help name desc => "# HELP " ++ name ++ " " ++ desc ++ "\n"
  | .type name kind => "# TYPE " ++ name ++ " " ++ kind.toStr ++ "\n"
  | .item name labels val =>
    name ++ (if labels = [] then "" else "\x7b" ++ writeLabels labels) ++ " " ++ val ++ "\n"
  | .zero name labels => name ++ "\x7b" ++ writeLabels labels ++ " 0\n"

inductive DerivedMetric where
  | cliError
  | cliTo
  | svrError
  | callError
  | callTo
  | cliLogicError
  | svrLogicError
  deriving DecidableEq

def DerivedMetric.unconditional : List DerivedMetric :=
  [.cliError, .cliTo, .svrError, .callError, .callTo]

namespace ServiceFlags

def defaults : ServiceFlags :=
  ⟨"c_request", "qps recorder of client", "s_request", "qps recorder of server", "c_call",
    "function call recorder of client", false, false⟩

variable (flags : ServiceFlags)

def cliTotal : String := flags.channelMetricsName ++ "_total"

def svrTotal : String := flags.serverMetricsName ++ "_total"

def callTotal : String := flags.callMetricsName ++ "_total"

def totalNames : List String := [flags.cliTotal, flags.svrTotal, flags.callTotal]

def nameOf : DerivedMetric → String
  | .cliError => flags.channelMetricsName ++ "_fail"
  | .cliTo => flags.channelMetricsName ++ "_timeout"
  | .svrError => flags.serverMetricsName ++ "_fail"
  | .callError => flags.callMetricsName ++ "_fail"
  | .callTo => flags.callMetricsName ++ "_timeout"
  | .cliLogicError => flags.channelMetricsName ++ "_logic_fail"
  | .svrLogicError => flags.serverMetricsName ++ "_logic_fail"

def totalOf : DerivedMetric → String
  | .cliError | .cliTo | .cliLogicError => flags.cliTotal
  | .svrError | .svrLogicError => flags.svrTotal
  | .callError | .callTo => flags.callTotal

/-- The description of a derived metric without variables. -/
def descOf : DerivedMetric → String
  | .cliError | .cliTo | .cliLogicError => flags.channelMetricsDesc
  | .svrError | .svrLogicError => flags.serverMetricsDesc
  | .callError | .callTo => flags.callMetricsDesc

/-- The derived metrics that get a placeholder, in the order in which they get it. -/
def placeholders : List DerivedMetric :=
  DerivedMetric.unconditional ++
    if flags.enableLogicFailMetrics then [.cliLogicError, .svrLogicError] else []

def keepsLabel (label : String × String) : Bool :=
  label.1 != "errcode" && label.1 != "tinstance" && label.1 != "lerr" && label.1 != "ltinstance" &&
    !(!flags.enableServerMetricsWithFip && label.1 == "fip")

/-- `back_up_labels`. -/
def reduce (labels : LabelPairs) : LabelPairs := labels.filter flags.keepsLabel

end ServiceFlags

/-- The text under which reduced labels are recorded. -/
def labelsKey (labels : LabelPairs) : String :=
  String.join (labels.map fun label => label.1 ++ ":" ++ label.2 ++ ";")

namespace MetricsService

variable (flags : ServiceFlags)

/-- `message` after all variables are dumped. -/
def dumped (visited : List DumpedVariable) : MsgMap := visited.foldl dumpMetrics ∅

/-- `SET_TOTAL_QPS_METRICS`, on the totals and the messages. -/
def setTotalQpsMetrics (state : MsgMap × MsgMap) (keyName : String) : MsgMap × MsgMap :=
  match state.2.find? keyName with
  | none => state
  | some array =>
    (state.1.alter keyName fun old => some (old.getD array), state.2.alter keyName fun _ => none)

/-- `total_qps_metrics` and `message` after the totals are moved. -/
def moved (visited : List DumpedVariable) : MsgMap × MsgMap :=
  flags.totalNames.foldl setTotalQpsMetrics (∅, dumped visited)

/-- An item of a total is recorded in `item_recorder`. -/
def recordItem (record : OrderedMap String LabelPairs) (item : BvarMsg) :
    OrderedMap String LabelPairs :=
  if item.msg.labels = [] then record
  else
    record.alter (labelsKey (flags.reduce item.msg.labels)) fun old =>
      some (old.getD (flags.reduce item.msg.labels))

/-- `item_recorder` at a total. -/
def itemRecorder (totals : MsgMap) (total : String) : OrderedMap String LabelPairs :=
  match totals.find? total with
  | none => ∅
  | some items => items.foldl (recordItem flags) ∅

def placeholderMsg (metric : DerivedMetric) : BvarMsg :=
  ⟨"", "", ⟨"", flags.descOf metric, [], .counter⟩, true⟩

def setPlaceholderData (totals message : MsgMap) (metric : DerivedMetric) : MsgMap :=
  if (totals.find? (flags.totalOf metric)).isSome then
    message.alter (flags.nameOf metric) fun old => some (old.getD [placeholderMsg flags metric])
  else message

/-- `message` after the placeholders are set. -/
def message (visited : List DumpedVariable) : MsgMap :=
  flags.placeholders.foldl (setPlaceholderData flags (moved flags visited).1)
    (moved flags visited).2

def metricsDesc (items : List BvarMsg) : String :=
  ((items.find? fun item => item.msg.desc != "").map fun item => item.msg.desc).getD ""

/-- The first assignment to `back_up`. -/
def backUp (totals : MsgMap) (name : String) : OrderedMap String LabelPairs :=
  if name = flags.nameOf .cliError ∨ name = flags.nameOf .cliTo ∨
      name = flags.nameOf .cliLogicError then
    itemRecorder flags totals flags.cliTotal
  else if name = flags.nameOf .svrError ∨ name = flags.nameOf .svrLogicError then
    itemRecorder flags totals flags.svrTotal
  else if name = flags.nameOf .callError ∨ name = flags.nameOf .callTo then
    itemRecorder flags totals flags.callTotal
  else ∅

/-- `back_up` after an item is written. -/
def eraseItem (record : OrderedMap String LabelPairs) (item : BvarMsg) :
    OrderedMap String LabelPairs :=
  if item.msg.labels = [] ∨ record.entries = [] then record
  else record.alter (labelsKey (flags.reduce item.msg.labels)) fun _ => none

/-- Whether a zero sample is written for an entry of `back_up`. -/
def writesZero (name : String) (entry : String × LabelPairs) : Bool :=
  entry.2 != [] &&
    !((name == flags.nameOf .cliLogicError || name == flags.nameOf .svrLogicError) &&
      !decide ("proto:baidu".toList <:+: entry.1.toList))

/-- What follows the metric's name in a sample, by the type of the metric and `bname`. -/
def suffixOf (kind : MetricsDataType) (bname : String) : String :=
  let sumOrCount (otherwise : String) :=
    if "na_sum".toList <:+ bname.toList then "_sum"
    else if "nb_count".toList <:+ bname.toList then "_count"
    else otherwise
  match kind with
  | .summary => sumOrCount ""
  | .histogram => sumOrCount "_bucket"
  | .gauge | .counter => ""

def totalLines : String × List BvarMsg → List MetricsLine
  | (_, []) => []
  | (name, first :: items) =>
    .help name (metricsDesc (first :: items)) :: .type name first.msg.type ::
      (first :: items).map fun item => .item name item.msg.labels item.val

/-- A line, with the description and the type before it as long as `is_write_annotate` holds. -/
def annotate (header : List MetricsLine) (state : Bool × List MetricsLine) (line : MetricsLine) :
    Bool × List MetricsLine :=
  (false, state.2 ++ (if state.1 then header else []) ++ [line])

def messageLines (totals : MsgMap) : String × List BvarMsg → List MetricsLine
  | (_, []) => []
  | (name, first :: items) =>
    let header := [.help name (metricsDesc (first :: items)), .type name first.msg.type]
    let written := (first :: items).filter fun item => !item.isPlaceholder
    let afterItems :=
      (written.map fun item =>
        MetricsLine.item (name ++ suffixOf first.msg.type item.bname) item.msg.labels
          item.val).foldl (annotate header) (true, [])
    let remaining := written.foldl (eraseItem flags) (backUp flags totals name)
    (((remaining.entries.filter (writesZero flags name)).map fun entry =>
      MetricsLine.zero name entry.2).foldl (annotate header) afterItems).2

def lines (visited : List DumpedVariable) : List MetricsLine :=
  (moved flags visited).1.entries.flatMap totalLines ++
    (message flags visited).entries.flatMap (messageLines flags (moved flags visited).1)

/-- The response body, for the variables in the order in which they are dumped. -/
def body (visited : List DumpedVariable) : String :=
  String.join ((lines flags visited).map MetricsLine.write)

end MetricsService
end McBrpc
