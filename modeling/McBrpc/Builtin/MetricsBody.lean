import McBrpc.Builtin.MetricsPage
import McBrpc.Library.PrometheusPlain
import McBrpc.Library.Execution
import Mathlib.Data.List.Perm.Basic

/-!
# The metrics page as a Prometheus document

The service copies label values and descriptions without escapes.  The page is read back as the
exposed series and the zero samples exactly when no label value and no description needs an escape
and the names and values are such as the format admits.
-/

namespace McBrpc

open PrometheusText List MetricsLine

def textLabels (labels : LabelPairs) : List (List Char × List Char) :=
  labels.map fun label => (label.1.toList, label.2.toList)

def textSample (name : String) (labels : LabelPairs) (val : String) : Sample :=
  ⟨name.toList, textLabels labels, val.toList, none⟩

def MetricsLine.entry : MetricsLine → Entry
  | .help name desc => .help name.toList desc.toList
  | .type name kind => .type name.toList kind.toStr.toList
  | .item name labels val => .sample (textSample name labels val)
  | .zero name labels => .sample (textSample name labels "0")

theorem textLabels_eq_nil_iff {labels : LabelPairs} : textLabels labels = [] ↔ labels = [] :=
  map_eq_nil_iff

theorem toList_writeLabels (labels : LabelPairs) :
    (writeLabels labels).toList = rawLabels (textLabels labels) := by
  induction labels with
  | nil => rfl
  | cons label labels ih =>
    cases labels with
    | nil => simp [writeLabels, rawLabels, rawLabel, textLabels]
    | cons next labels =>
      have raw_eq : rawLabels (textLabels (label :: next :: labels)) =
          rawLabel (label.1.toList, label.2.toList) ++
            ',' :: rawLabels (textLabels (next :: labels)) := rfl
      rw [raw_eq, ← ih, writeLabels]
      · simp [rawLabel]
      · simp

theorem toList_write (line : MetricsLine) (labelled : ∀ name, line ≠ .zero name []) :
    line.write.toList = line.entry.raw ++ ['\n'] := by
  cases line with
  | help name desc =>
    rw [MetricsLine.entry, Entry.raw_help, write]
    simp
  | type name kind =>
    rw [MetricsLine.entry, Entry.raw_type, write]
    simp
  | item name labels val =>
    rw [MetricsLine.entry, Entry.raw_sample, write, textSample, rawLabelSet]
    by_cases unlabelled : labels = []
    · simp [unlabelled, textLabels]
    · simp [unlabelled, textLabels_eq_nil_iff, toList_writeLabels]
  | zero name labels =>
    have ne : labels ≠ [] := by
      rintro rfl
      exact labelled name rfl
    rw [MetricsLine.entry, Entry.raw_sample, write, textSample, rawLabelSet]
    simp [ne, textLabels_eq_nil_iff, toList_writeLabels]

namespace MetricsService

/-- The entries that the page is meant to have. -/
def document (flags : ServiceFlags) (visited : List DumpedVariable) : List Entry :=
  (lines flags visited).map MetricsLine.entry

variable {flags : ServiceFlags} {seen : List DumpedVariable} {line : MetricsLine}

theorem mem_lines_iff : line ∈ lines flags seen ↔
      ∃ entry ∈ metrics flags seen, line ∈ metricLines flags seen entry := by
  rw [lines_eq, mem_flatMap]

theorem mem_metricLines_iff {entry : String × List BvarMsg} : line ∈ metricLines flags seen entry ↔
      samples flags seen (kindOf entry.2) entry.1 ≠ [] ∧
        (line = .help entry.1 (metricsDesc entry.2) ∨ line = .type entry.1 (kindOf entry.2) ∨
          line ∈ samples flags seen (kindOf entry.2) entry.1) := by
  rw [metricLines]
  split
  · next empty => simp [empty]
  · next ne => simp [ne]

theorem mem_samples_iff {kind : MetricsDataType} {name : String} :
    line ∈ samples flags seen kind name ↔
      (∃ var ∈ seen, var.msg.name = name ∧
        line = .item (sampleName flags kind name var.name) var.msg.labels var.description) ∨
      ∃ labels ∈ zeroLabels flags seen name, line = .zero name labels := by
  simp only [samples, named, mem_append, mem_map, mem_filter, decide_eq_true_eq]
  refine or_congr ⟨?_, ?_⟩ ⟨?_, ?_⟩
  · rintro ⟨_, ⟨var, ⟨var_mem, same⟩, rfl⟩, rfl⟩
    exact ⟨var, var_mem, same, rfl⟩
  · rintro ⟨var, var_mem, same, rfl⟩
    exact ⟨_, ⟨var, ⟨var_mem, same⟩, rfl⟩, rfl⟩
  · rintro ⟨labels, mem, rfl⟩
    exact ⟨labels, mem, rfl⟩
  · rintro ⟨labels, mem, rfl⟩
    exact ⟨labels, mem, rfl⟩

theorem nonempty_of_mem_zeroLabels {name : String} {labels : LabelPairs}
    (labels_mem : labels ∈ zeroLabels flags seen name) : labels ≠ [] := by
  obtain ⟨entry, mem, rfl⟩ := mem_map.mp labels_mem
  have writes := (mem_filter.mp mem).2
  rw [writesZero, Bool.and_eq_true, bne_iff_ne] at writes
  exact writes.1

theorem toList_body : (body flags seen).toList = rawDocument (document flags seen) := by
  rw [body, String.toList_join, document, rawDocument, flatMap_map, flatMap_map]
  refine flatMap_congr fun line line_mem => toList_write line ?_
  rintro name rfl
  obtain ⟨entry, -, line_mem⟩ := mem_lines_iff.mp line_mem
  rcases (mem_metricLines_iff.mp line_mem).2 with is_help | is_type | is_sample
  · cases is_help
  · cases is_type
  · rcases mem_samples_iff.mp is_sample with ⟨var, -, -, is_item⟩ | ⟨labels, mem, is_zero⟩
    · cases is_item
    · obtain ⟨-, rfl⟩ := zero.inj is_zero
      exact nonempty_of_mem_zeroLabels mem rfl

/-- Names, label names and values as the format admits them, and label values and written
descriptions that need no escape. -/
structure Exportable (flags : ServiceFlags) (visited : List DumpedVariable) : Prop where
  name : ∀ var ∈ visited, isMetricName var.msg.name.toList
  labelName : ∀ var ∈ visited, ∀ label ∈ var.msg.labels, isLabelName label.1.toList
  labelValue : ∀ var ∈ visited, ∀ label ∈ var.msg.labels, isPlainValue label.2.toList
  value : ∀ var ∈ visited, isFloat var.description.toList
  description : ∀ name desc, help name desc ∈ lines flags visited →
    isPlainText desc.toList

theorem named_ne_nil {var : DumpedVariable} (mem : var ∈ seen) :
    named seen var.msg.name ≠ [] := by
  refine ne_nil_of_mem (mem_map_of_mem (mem_filter.mpr ⟨mem, ?_⟩))
  exact decide_eq_true rfl

theorem lines_of_mem {var : DumpedVariable} (mem : var ∈ visited) :
    item (sampleName flags (kindOf (named visited var.msg.name)) var.msg.name var.name)
        var.msg.labels var.description ∈ lines flags visited ∧
      help var.msg.name (metricsDesc (named visited var.msg.name)) ∈
        lines flags visited := by
  have entry_mem := exists_mem_metrics flags (named_ne_nil mem)
  have sample_mem : item
      (sampleName flags (kindOf (named visited var.msg.name)) var.msg.name var.name)
      var.msg.labels var.description ∈
        samples flags visited (kindOf (named visited var.msg.name)) var.msg.name :=
    mem_samples_iff.mpr (.inl ⟨var, mem, rfl, rfl⟩)
  have nonempty := ne_nil_of_mem sample_mem
  refine ⟨mem_lines_iff.mpr ⟨_, entry_mem, mem_metricLines_iff.mpr ⟨nonempty, ?_⟩⟩,
    mem_lines_iff.mpr ⟨_, entry_mem, mem_metricLines_iff.mpr ⟨nonempty, .inl rfl⟩⟩⟩
  exact .inr (.inr sample_mem)

theorem exportable_of_entries
    (fine : ∀ line ∈ lines flags seen, line.entry.Valid ∧ line.entry.Plain) :
    Exportable flags seen where
  name _ var_mem := (fine _ (lines_of_mem var_mem).2).1
  labelName _ var_mem _ label_mem :=
    (fine _ (lines_of_mem var_mem).1).1.2.1 _ (mem_map_of_mem label_mem)
  labelValue _ var_mem _ label_mem :=
    (fine _ (lines_of_mem var_mem).1).2.1 _ (mem_map_of_mem label_mem)
  value _ var_mem := (fine _ (lines_of_mem var_mem).1).1.2.2
  description _ _ help_mem := (fine _ help_mem).2

/-- Labels are recorded from a dumped variable. -/
def RecordedFrom (flags : ServiceFlags) (visited : List DumpedVariable)
    (record : OrderedMap String LabelPairs) : Prop :=
  ∀ key labels, record.find? key = some labels →
    ∃ var ∈ visited, labels = flags.reduce var.msg.labels

theorem recordedFrom_empty : RecordedFrom flags seen ∅ := by
  intro key labels found
  cases found

theorem RecordedFrom.alter {record : OrderedMap String LabelPairs}
    (recorded : RecordedFrom flags seen record) (key : String)
    {change : Option LabelPairs → Option LabelPairs}
    (changed : ∀ old labels, change old = some labels → old = some labels ∨
      ∃ var ∈ seen, labels = flags.reduce var.msg.labels) :
    RecordedFrom flags seen (record.alter key change) := by
  intro other labels found
  rw [OrderedMap.find?_alter] at found
  split at found
  · rcases changed _ labels found with kept | added
    · exact recorded key labels kept
    · exact added
  · exact recorded other labels found

theorem recordedFrom_itemRecorder (total : String) :
    RecordedFrom flags seen (itemRecorder flags (moved flags seen).1 total) := by
  rw [itemRecorder]
  split
  · exact recordedFrom_empty
  · next items found =>
    have entry_mem := OrderedMap.find?_eq_some_iff.mp found
    have items_eq : items = named seen total := (of_mem_totals entry_mem).2.1
    refine Execution.foldl_invariant (RecordedFrom flags seen) items recordedFrom_empty ?_
    intro record item mem recorded
    rw [items_eq] at mem
    obtain ⟨var, var_mem, rfl⟩ := mem_map.mp mem
    rw [recordItem]
    split
    · exact recorded
    · refine recorded.alter _ fun old labels added => ?_
      cases old with
      | none =>
        right
        exact ⟨var, (mem_filter.mp var_mem).1, (Option.some.inj added).symm⟩
      | some before => exact .inl added

theorem recordedFrom_backUp (name : String) :
    RecordedFrom flags seen (backUp flags (moved flags seen).1 name) := by
  rw [backUp]
  split
  · exact recordedFrom_itemRecorder _
  · split
    · exact recordedFrom_itemRecorder _
    · split
      · exact recordedFrom_itemRecorder _
      · exact recordedFrom_empty

theorem reduced_of_mem_zeroLabels {name : String} {labels : LabelPairs}
    (labels_mem : labels ∈ zeroLabels flags seen name) :
    ∃ var ∈ seen, labels = flags.reduce var.msg.labels := by
  obtain ⟨entry, mem, rfl⟩ := mem_map.mp labels_mem
  have found := OrderedMap.find?_eq_some_iff.mpr (mem_filter.mp mem).1
  refine Execution.foldl_invariant (RecordedFrom flags seen) (named seen name)
    (recordedFrom_backUp name) ?_ entry.1 entry.2 found
  intro record item _ recorded
  rw [eraseItem]
  split
  · exact recorded
  · refine recorded.alter _ fun old labels removed => ?_
    cases removed

theorem isMetricName_of_mem_metrics (exportable : Exportable flags seen)
    {entry : String × List BvarMsg} (mem : entry ∈ metrics flags seen) :
    isMetricName entry.1.toList := by
  have of_named {name : String} (some_named : named seen name ≠ []) :
      isMetricName name.toList := by
    obtain ⟨item, item_mem⟩ := exists_mem_of_ne_nil _ some_named
    obtain ⟨var, var_mem, -⟩ := mem_map.mp item_mem
    obtain ⟨var_mem, same⟩ := mem_filter.mp var_mem
    rw [← of_decide_eq_true same]
    exact exportable.name var var_mem
  rcases mem_append.mp mem with in_totals | in_message
  · obtain ⟨-, items_eq, ne⟩ := of_mem_totals in_totals
    exact of_named (items_eq ▸ ne)
  · rcases (of_mem_message in_message).2 with
      ⟨items_eq, ne⟩ | ⟨-, metric, name_eq, some_named, -⟩
    · exact of_named (items_eq ▸ ne)
    · obtain ⟨base, nameOf_eq, total_eq⟩ := exists_base flags metric
      have total_name := of_named some_named
      have tail_name : isMetricName (tailOf metric).toList := by
        cases metric <;> rfl
      rw [total_eq, String.toList_append] at total_name
      rw [← name_eq, nameOf_eq, String.toList_append]
      exact isMetricName_append total_name tail_name

theorem isMetricName_sampleName {kind : MetricsDataType} {name bname : String}
    (isName : isMetricName name.toList) :
    isMetricName (sampleName flags kind name bname).toList := by
  rw [sampleName, String.toList_append]
  refine isWord_append isName ?_
  split
  · rfl
  · rw [suffixOf.eq_def]
    cases kind <;> simp only
    · rfl
    · split
      · rfl
      · split <;> rfl
    · rfl
    · split
      · rfl
      · split <;> rfl

theorem entries_iff_exportable :
    (∀ line ∈ lines flags visited, line.entry.Valid ∧ line.entry.Plain) ↔
      Exportable flags visited := by
  refine ⟨exportable_of_entries, fun exportable line line_mem => ?_⟩
  obtain ⟨entry, mem, in_metric⟩ := mem_lines_iff.mp line_mem
  have isName := isMetricName_of_mem_metrics exportable mem
  rcases (mem_metricLines_iff.mp in_metric).2 with rfl | rfl | sample_mem
  · exact ⟨isName, exportable.description _ _ line_mem⟩
  · refine ⟨⟨isName, ?_⟩, trivial⟩
    cases kindOf entry.2 <;> decide
  · rcases mem_samples_iff.mp sample_mem with ⟨var, var_mem, same, rfl⟩ | ⟨labels, labels_mem, rfl⟩
    · refine ⟨⟨isMetricName_sampleName isName, ?_, exportable.value var var_mem⟩, ?_, rfl⟩
      · exact forall_mem_map.mpr (exportable.labelName var var_mem)
      · exact forall_mem_map.mpr (exportable.labelValue var var_mem)
    · obtain ⟨var, var_mem, rfl⟩ := reduced_of_mem_zeroLabels labels_mem
      refine ⟨⟨isName, forall_mem_map.mpr fun label label_mem => ?_, rfl⟩,
        forall_mem_map.mpr fun label label_mem => ?_, rfl⟩
      · exact exportable.labelName var var_mem label (mem_filter.mp label_mem).1
      · exact exportable.labelValue var var_mem label (mem_filter.mp label_mem).1

/-- The series of a dumped variable, with the description of its metric. -/
def exposedSeries (flags : ServiceFlags) (visited : List DumpedVariable) (var : DumpedVariable) :
    Sample × List Char :=
  (textSample (sampleName flags (kindOf (named visited var.msg.name)) var.msg.name var.name)
    var.msg.labels var.description, (metricsDesc (named visited var.msg.name)).toList)

/-- The zero series, with the descriptions of their metrics. -/
def zeroSeries (flags : ServiceFlags) (visited : List DumpedVariable) : List (Sample × List Char) :=
  (metrics flags visited).flatMap fun entry =>
    (zeroLabels flags visited entry.1).map fun labels =>
      (textSample entry.1 labels "0", (metricsDesc entry.2).toList)

theorem flatMap_filter_perm {α κ : Type} [DecidableEq κ] {names : List κ} (nodup : names.Nodup)
    (key : α → κ) {items : List α} (covers : ∀ item ∈ items, key item ∈ names) :
    (names.flatMap fun name => items.filter fun item => decide (key item = name)).Perm items := by
  induction names generalizing items with
  | nil =>
    rw [eq_nil_iff_forall_not_mem.mpr fun item item_mem => nomatch covers item item_mem]
    rfl
  | cons name names ih =>
    obtain ⟨not_later, nodup⟩ := nodup_cons.mp nodup
    have later (other : κ) (mem : other ∈ names) :
        (items.filter fun item => decide (key item = other)) =
          (items.filter fun item => !decide (key item = name)).filter fun item =>
            decide (key item = other) := by
      rw [filter_filter]
      refine filter_congr fun item _ => ?_
      by_cases same : key item = other
      · have ne : key item ≠ name := fun here => not_later ((here.symm.trans same) ▸ mem)
        simp [same, same ▸ ne]
      · simp [same]
    rw [flatMap_cons, flatMap_congr later]
    refine (Perm.append_left _ (ih nodup fun item item_mem => ?_)).trans
      (filter_append_perm _ items)
    obtain ⟨item_mem, ne⟩ := mem_filter.mp item_mem
    refine (mem_cons.mp (covers item item_mem)).resolve_left fun here => ?_
    simp [here] at ne

def textSamples (flags : ServiceFlags) (visited : List DumpedVariable)
    (entry : String × List BvarMsg) : List Sample :=
  ((named visited entry.1).map fun item =>
    textSample (sampleName flags (kindOf entry.2) entry.1 item.bname) item.msg.labels item.val) ++
  (zeroLabels flags visited entry.1).map fun labels => textSample entry.1 labels "0"

theorem map_entry_samples (entry : String × List BvarMsg) :
    (samples flags seen (kindOf entry.2) entry.1).map MetricsLine.entry =
      (textSamples flags seen entry).map .sample := by
  rw [samples, textSamples, map_append, map_append, map_map, map_map, map_map, map_map]
  rfl

theorem describedSamples_metricLines (entries : List (String × List BvarMsg)) (text : List Char) :
    describedSamples text ((entries.flatMap (metricLines flags seen)).map MetricsLine.entry) =
      entries.flatMap fun entry =>
        (textSamples flags seen entry).map fun line => (line, (metricsDesc entry.2).toList) := by
  induction entries generalizing text with
  | nil => rfl
  | cons entry entries ih =>
    rw [flatMap_cons, flatMap_cons, map_append, metricLines]
    split
    · next empty =>
      have no_texts : textSamples flags seen entry = [] := by
        rw [← map_eq_nil_iff, ← map_entry_samples, empty, map_nil]
      rw [no_texts]
      exact ih text
    · rw [map_cons, map_cons, map_entry_samples]
      refine (describedSamples_append (metricsDesc entry.2).toList _ _).trans ?_
      rw [ih]

theorem of_mem_metrics {entry : String × List BvarMsg} (mem : entry ∈ metrics flags seen) :
    entry.2 = named seen entry.1 ∨ named seen entry.1 = [] := by
  rcases mem_append.mp mem with in_totals | in_message
  · exact .inl (of_mem_totals in_totals).2.1
  · rcases (of_mem_message in_message).2 with ⟨items_eq, -⟩ | ⟨none_named, -⟩
    · exact .inl items_eq
    · exact .inr none_named

theorem exposedSeries_of_mem_metrics {entry : String × List BvarMsg}
    (mem : entry ∈ metrics flags seen) :
    ((named seen entry.1).map fun item =>
      (textSample (sampleName flags (kindOf entry.2) entry.1 item.bname) item.msg.labels item.val,
        (metricsDesc entry.2).toList)) =
      (seen.filter fun var => decide (var.msg.name = entry.1)).map
        (exposedSeries flags seen) := by
  rcases of_mem_metrics mem with items_eq | none_named
  · rw [named, map_map]
    refine map_congr_left fun var var_mem => ?_
    have same := of_decide_eq_true (mem_filter.mp var_mem).2
    rw [exposedSeries, same, items_eq]
    rfl
  · rw [none_named, map_eq_nil_iff.mp none_named]
    rfl

theorem describedSamples_document : (describedSamples [] (document flags seen)).Perm
      (seen.map (exposedSeries flags seen) ++ zeroSeries flags seen) := by
  have covers : ∀ var ∈ seen, var.msg.name ∈ (metrics flags seen).map Prod.fst :=
    fun var mem =>
      mem_map.mpr ⟨_, exists_mem_metrics flags (named_ne_nil mem), rfl⟩
  have exposed := ((flatMap_filter_perm nodup_metrics (fun var => var.msg.name) covers).map
    (exposedSeries flags seen))
  rw [flatMap_map, map_flatMap,
    ← flatMap_congr fun entry => exposedSeries_of_mem_metrics] at exposed
  rw [document, lines_eq, describedSamples_metricLines]
  simp only [textSamples, map_append, map_map]
  exact (flatMap_append_perm _ _ _).symm.trans (exposed.append_right _)

/-- A variable with a label value that looks like the end of its line and a second line. -/
def quotedVariable : DumpedVariable :=
  ⟨"v", "1", ⟨"hits", "", [("method", "a\"\x7d 2\nhits\x7bmethod=\"b")], .counter⟩⟩

end MetricsService

end McBrpc
