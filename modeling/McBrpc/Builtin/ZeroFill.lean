import McBrpc.Builtin.MetricsPage
import McBrpc.Library.Execution
import Mathlib.Data.List.Count

/-!
# Zero samples

A derived metric is filled with a zero sample for the reduced labels of each sample of its total
that it lacks.  The service compares reduced labels by a text in which neither a colon nor a
semicolon of a value is marked.
-/

namespace McBrpc

open List DerivedMetric MetricsLine ServiceFlags

/-- Derived metrics with one name have one total. -/
def ServiceFlags.Apart (flags : ServiceFlags) : Prop :=
  ∀ left right, flags.nameOf left = flags.nameOf right → flags.totalOf left = flags.totalOf right

theorem labelsKey_cons (label : String × String) (labels : LabelPairs) :
    labelsKey (label :: labels) = label.1 ++ ":" ++ label.2 ++ ";" ++ labelsKey labels := by
  simp [labelsKey]

theorem labelsKey_eq_empty_iff {labels : LabelPairs} : labelsKey labels = "" ↔ labels = [] := by
  cases labels with
  | nil => exact iff_of_true rfl rfl
  | cons label labels =>
    refine iff_of_false (fun empty => ?_) (cons_ne_nil _ _)
    have no_chars := congrArg String.toList empty
    simp [labelsKey_cons] at no_chars

theorem apart_defaults : defaults.Apart := by
  intro left right
  cases left <;> cases right <;> decide

namespace MetricsService

/-- The reduced labels of the dumped variables of a metric. -/
def reducedLabels (flags : ServiceFlags) (visited : List DumpedVariable) (name : String) :
    List LabelPairs :=
  (named visited name).map fun item => flags.reduce item.msg.labels

variable {flags : ServiceFlags} {seen : List DumpedVariable}

section Records

variable {labels : LabelPairs}

theorem labelsKey_ne_of_unlabelled {item : BvarMsg} (unlabelled : item.msg.labels = [])
    (ne : labels ≠ []) : labelsKey (flags.reduce item.msg.labels) ≠ labelsKey labels := by
  rw [unlabelled]
  exact fun same => ne (labelsKey_eq_empty_iff.mp same.symm)

variable (record : OrderedMap String LabelPairs)

theorem find?_recordItem (item : BvarMsg) (ne : labels ≠ []) :
    (recordItem flags record item).find? (labelsKey labels) =
      (record.find? (labelsKey labels)).or
        (if labelsKey (flags.reduce item.msg.labels) = labelsKey labels then
          some (flags.reduce item.msg.labels) else none) := by
  rw [recordItem]
  split
  · next unlabelled =>
    rw [if_neg (labelsKey_ne_of_unlabelled unlabelled ne), Option.or_none]
  · rw [OrderedMap.find?_alter]
    by_cases same : labelsKey labels = labelsKey (flags.reduce item.msg.labels)
    · rw [if_pos same, if_pos same.symm, same]
      cases record.find? (labelsKey (flags.reduce item.msg.labels)) <;> rfl
    · rw [if_neg same, if_neg (Ne.symm same), Option.or_none]

theorem find?_foldl_recordItem (items : List BvarMsg) (ne : labels ≠ []) :
    (items.foldl (recordItem flags) ∅).find? (labelsKey labels) =
      (items.map fun item => flags.reduce item.msg.labels).find? fun other =>
        decide (labelsKey other = labelsKey labels) := by
  induction items using List.reverseRecOn with
  | nil => rfl
  | append_singleton items item ih =>
    rw [foldl_append, foldl_cons, foldl_nil, find?_recordItem _ _ ne, ih,
      map_append, find?_append, map_singleton, find?_singleton]
    simp

theorem find?_eraseItem (item : BvarMsg) (ne : labels ≠ []) :
    (eraseItem flags record item).find? (labelsKey labels) =
      if labelsKey (flags.reduce item.msg.labels) = labelsKey labels then none
      else record.find? (labelsKey labels) := by
  rw [eraseItem]
  split
  · next idle =>
    rcases idle with unlabelled | empty
    · rw [if_neg (labelsKey_ne_of_unlabelled unlabelled ne)]
    · have absent : record.find? (labelsKey labels) = none := by
        rw [OrderedMap.find?, empty]
        rfl
      rw [absent, ite_self]
  · rw [OrderedMap.find?_alter]
    simp only [eq_comm]

theorem find?_foldl_eraseItem (items : List BvarMsg) (ne : labels ≠ []) :
    (items.foldl (eraseItem flags) record).find? (labelsKey labels) =
      if ∃ item ∈ items, labelsKey (flags.reduce item.msg.labels) = labelsKey labels then none
      else record.find? (labelsKey labels) := by
  induction items using List.reverseRecOn with
  | nil => simp
  | append_singleton items item ih =>
    rw [foldl_append, foldl_cons, foldl_nil, find?_eraseItem _ _ ne, ih]
    by_cases here : labelsKey (flags.reduce item.msg.labels) = labelsKey labels
    · simp [here]
    · simp [here]

/-- Labels are recorded under their key. -/
def Keyed (record : OrderedMap String LabelPairs) : Prop :=
  ∀ key labels, record.find? key = some labels → key = labelsKey labels

theorem keyed_empty : Keyed ∅ :=
  fun _ _ found => nomatch found

theorem Keyed.recordItem {record : OrderedMap String LabelPairs} (keyed : Keyed record)
    (item : BvarMsg) : Keyed (recordItem flags record item) := by
  rw [MetricsService.recordItem]
  split
  · exact keyed
  · intro key labels found
    rw [OrderedMap.find?_alter] at found
    split at found
    · next same =>
      cases old : record.find? (labelsKey (flags.reduce item.msg.labels)) with
      | none =>
        rw [old] at found
        rw [same, ← Option.some.inj found]
        rfl
      | some before =>
        rw [old] at found
        rw [← Option.some.inj found, same]
        exact keyed _ before old
    · exact keyed key labels found

theorem Keyed.eraseItem {record : OrderedMap String LabelPairs} (keyed : Keyed record)
    (item : BvarMsg) : Keyed (eraseItem flags record item) := by
  rw [MetricsService.eraseItem]
  split
  · exact keyed
  · intro key labels found
    rw [OrderedMap.find?_alter] at found
    split at found
    · cases found
    · exact keyed key labels found

theorem keyed_itemRecorder (totals : MsgMap) (total : String) :
    Keyed (itemRecorder flags totals total) := by
  rw [itemRecorder]
  split
  · exact keyed_empty
  · exact Execution.foldl_invariant Keyed _ keyed_empty fun _ item _ keyed => keyed.recordItem item

theorem find?_itemRecorder {metric : DerivedMetric} (ne : labels ≠ []) :
    (itemRecorder flags (moved flags seen).1 (flags.totalOf metric)).find? (labelsKey labels) =
      (reducedLabels flags seen (flags.totalOf metric)).find? fun other =>
        decide (labelsKey other = labelsKey labels) := by
  rw [itemRecorder, (find?_moved _).1, if_pos (totalOf_mem_totalNames flags metric), nonempty?,
    reducedLabels]
  by_cases none_named : named seen (flags.totalOf metric) = []
  · rw [if_pos none_named, none_named]
    rfl
  · rw [if_neg none_named]
    exact find?_foldl_recordItem _ ne

end Records

theorem backUp_nameOf (apart : flags.Apart) (totals : MsgMap) (metric : DerivedMetric) :
    backUp flags totals (flags.nameOf metric) =
      itemRecorder flags totals (flags.totalOf metric) := by
  rw [backUp]
  split
  · next cli =>
    rcases cli with same | same | same <;> rw [apart _ _ same, totalOf]
  · next not_cli =>
    split
    · next svr =>
      rcases svr with same | same <;> rw [apart _ _ same, totalOf]
    · next not_svr =>
      split
      · next call =>
        rcases call with same | same <;> rw [apart _ _ same, totalOf]
      · next not_call => cases metric <;> simp at not_cli not_svr not_call

theorem tailOf_eq (apart : flags.Apart) {left right : DerivedMetric}
    (same : flags.nameOf left = flags.nameOf right) : tailOf left = tailOf right := by
  have same_total := apart left right same
  obtain ⟨base, name_eq, total_eq⟩ := exists_base flags left
  obtain ⟨base', name_eq', total_eq'⟩ := exists_base flags right
  rw [total_eq, total_eq', String.append_left_inj] at same_total
  rwa [name_eq, name_eq', same_total, String.append_right_inj] at same

theorem tailOf_ne_logic : ∀ metric ∈ unconditional, tailOf metric ≠ "_logic_fail" := by
  decide

theorem writesZero_nameOf (apart : flags.Apart) {metric : DerivedMetric}
    (unconditional : metric ∈ unconditional) (entry : String × LabelPairs) :
    writesZero flags (flags.nameOf metric) entry = (entry.2 != []) := by
  have not_logic (logic : DerivedMetric) (tail_eq : tailOf logic = "_logic_fail") :
      flags.nameOf metric ≠ flags.nameOf logic := by
    intro same
    exact tailOf_ne_logic metric unconditional ((tailOf_eq apart same).trans tail_eq)
  rw [writesZero, beq_false_of_ne (not_logic .cliLogicError rfl),
    beq_false_of_ne (not_logic .svrLogicError rfl)]
  simp

section ZeroLabels

/-- The record from which the zero samples of a metric are written. -/
def remaining (flags : ServiceFlags) (visited : List DumpedVariable) (metric : DerivedMetric) :
    OrderedMap String LabelPairs :=
  (named visited (flags.nameOf metric)).foldl (eraseItem flags)
    (itemRecorder flags (moved flags visited).1 (flags.totalOf metric))

theorem keyed_remaining (metric : DerivedMetric) : Keyed (remaining flags seen metric) :=
  Execution.foldl_invariant Keyed _ (keyed_itemRecorder _ _)
    fun _ item _ keyed => keyed.eraseItem item

variable {metric : DerivedMetric}

variable (apart : flags.Apart) (unconditional : metric ∈ unconditional)
include apart unconditional

theorem zeroLabels_eq : zeroLabels flags seen (flags.nameOf metric) =
      ((remaining flags seen metric).entries.map Prod.snd).filter (· != []) := by
  rw [zeroLabels, backUp_nameOf apart, ← remaining, filter_map]
  congr 1
  exact filter_congr fun entry _ => writesZero_nameOf apart unconditional entry

theorem mem_zeroLabels_iff {labels : LabelPairs} :
    labels ∈ zeroLabels flags seen (flags.nameOf metric) ↔
      labels ≠ [] ∧
      (∀ other ∈ reducedLabels flags seen (flags.nameOf metric),
        labelsKey other ≠ labelsKey labels) ∧
      ((reducedLabels flags seen (flags.totalOf metric)).find? fun other =>
        decide (labelsKey other = labelsKey labels)) = some labels := by
  rw [zeroLabels_eq apart unconditional, mem_filter, bne_iff_ne, and_comm]
  refine and_congr_right fun ne => ?_
  have keyed : labels ∈ (remaining flags seen metric).entries.map Prod.snd ↔
      (remaining flags seen metric).find? (labelsKey labels) = some labels := by
    constructor
    · intro labels_mem
      obtain ⟨⟨key, labels⟩, mem, rfl⟩ := mem_map.mp labels_mem
      have found := OrderedMap.find?_eq_some_iff.mpr mem
      rwa [← keyed_remaining metric key labels found]
    · intro found
      exact mem_map.mpr ⟨_, OrderedMap.find?_eq_some_iff.mp found, rfl⟩
  rw [keyed, remaining, find?_foldl_eraseItem _ _ ne, find?_itemRecorder ne]
  have present : (∃ item ∈ named seen (flags.nameOf metric),
      labelsKey (flags.reduce item.msg.labels) = labelsKey labels) ↔
      ¬∀ other ∈ reducedLabels flags seen (flags.nameOf metric),
        labelsKey other ≠ labelsKey labels := by
    simp [reducedLabels]
  split
  · next erased =>
    exact iff_of_false (fun found => nomatch found) fun both => present.mp erased both.1
  · next kept =>
    exact ⟨fun found => ⟨not_not.mp (mt present.mpr kept), found⟩, fun both => both.2⟩

theorem nodup_zeroLabels : (zeroLabels flags seen (flags.nameOf metric)).Nodup := by
  rw [zeroLabels_eq apart unconditional]
  refine List.Nodup.filter _ (Nodup.of_map labelsKey ?_)
  have keys_eq : ((remaining flags seen metric).entries.map Prod.snd).map labelsKey =
      (remaining flags seen metric).entries.map Prod.fst := by
    rw [map_map]
    refine map_congr_left fun entry mem => ?_
    exact (keyed_remaining metric entry.1 entry.2 (OrderedMap.find?_eq_some_iff.mpr mem)).symm
  rw [keys_eq]
  exact OrderedMap.nodup_keys _

end ZeroLabels

theorem count_metricLines (entry : String × List BvarMsg) (name : String) (labels : LabelPairs) :
    (metricLines flags seen entry).count (.zero name labels) =
      if entry.1 = name then (zeroLabels flags seen name).count labels else 0 := by
  have in_samples : (samples flags seen (kindOf entry.2) entry.1).count (.zero name labels) =
      if entry.1 = name then (zeroLabels flags seen name).count labels else 0 := by
    have no_items : zero name labels ∉ (named seen entry.1).map fun item =>
        .item (sampleName flags (kindOf entry.2) entry.1 item.bname) item.msg.labels item.val := by
      simp
    rw [samples, count_append, count_eq_zero_of_not_mem no_items, Nat.zero_add]
    split
    · next same =>
      rw [same]
      exact count_map_of_injective _ _ (fun _ _ eq => (zero.inj eq).2) _
    · next other =>
      refine count_eq_zero_of_not_mem fun line_mem => ?_
      obtain ⟨_, -, eq⟩ := mem_map.mp line_mem
      exact other (zero.inj eq).1
  rw [metricLines, ← in_samples]
  split
  · next no_samples => rw [no_samples]
  · rw [count_cons_of_ne (by simp), count_cons_of_ne (by simp)]

theorem count_flatMap_of_nodup {α β : Type} [DecidableEq α] {entries : List (String × β)}
    (nodup : (entries.map Prod.fst).Nodup) {lines : String × β → List α} {line : α} {name : String}
    {count : Nat}
    (counts : ∀ entry, (lines entry).count line = if entry.1 = name then count else 0) :
    (entries.flatMap lines).count line = if name ∈ entries.map Prod.fst then count else 0 := by
  induction entries with
  | nil => rfl
  | cons entry entries ih =>
    obtain ⟨not_later, nodup⟩ := nodup_cons.mp nodup
    rw [flatMap_cons, count_append, counts, ih nodup, map_cons]
    by_cases here : entry.1 = name
    · rw [if_pos here, if_neg (here ▸ not_later), Nat.add_zero, if_pos (here ▸ mem_cons_self)]
    · rw [if_neg here, Nat.zero_add]
      simp only [mem_cons, Ne.symm here, false_or]

theorem count_lines (apart : flags.Apart) {metric : DerivedMetric}
    (unconditional : metric ∈ unconditional) (labels : LabelPairs) :
    (lines flags seen).count (.zero (flags.nameOf metric) labels) =
      (zeroLabels flags seen (flags.nameOf metric)).count labels := by
  rw [lines_eq, count_flatMap_of_nodup nodup_metrics
    fun entry => count_metricLines entry (flags.nameOf metric) labels]
  split
  · rfl
  · next absent =>
    refine (count_eq_zero_of_not_mem fun labels_mem => absent ?_).symm
    obtain ⟨-, -, found⟩ := (mem_zeroLabels_iff apart unconditional).mp labels_mem
    have placed : metric ∈ flags.placeholders := mem_append_left _ unconditional
    have some_named : named seen (flags.totalOf metric) ≠ [] := by
      intro none_named
      rw [reducedLabels, none_named] at found
      cases found
    obtain ⟨items, mem⟩ := exists_mem_metrics_of_total placed some_named
    exact mem_map.mpr ⟨_, mem, rfl⟩

/-- The text under which labels are recorded tells the missing labels of a derived metric from all
other labels of the metric and its total. -/
def Distinguished (flags : ServiceFlags) (visited : List DumpedVariable) (metric : DerivedMetric) :
    Prop :=
  ∀ labels ∈ reducedLabels flags visited (flags.totalOf metric), labels ≠ [] →
    labels ∉ reducedLabels flags visited (flags.nameOf metric) →
    ∀ other ∈ reducedLabels flags visited (flags.totalOf metric) ++
        reducedLabels flags visited (flags.nameOf metric),
      labelsKey other = labelsKey labels → other = labels

/-- There is one zero sample for labels of the total that the metric lacks, and none for others. -/
def ZeroFilled (flags : ServiceFlags) (visited : List DumpedVariable) (metric : DerivedMetric) :
    Prop :=
  ∀ labels ∈ reducedLabels flags visited (flags.totalOf metric), labels ≠ [] →
    (lines flags visited).count (.zero (flags.nameOf metric) labels) =
      if labels ∈ reducedLabels flags visited (flags.nameOf metric) then 0 else 1

section Order

variable {metric : DerivedMetric}

theorem reducedLabels_perm (flags : ServiceFlags) {order : List DumpedVariable}
    (perm : order.Perm seen) (name : String) :
    (reducedLabels flags order name).Perm (reducedLabels flags seen name) :=
  ((perm.filter _).map _).map _

theorem distinguished_of_perm {order : List DumpedVariable} (perm : order.Perm seen)
    (distinguished : Distinguished flags seen metric) : Distinguished flags order metric := by
  intro labels labels_mem ne missing other mem
  have total_perm := reducedLabels_perm flags perm (flags.totalOf metric)
  have metric_perm := reducedLabels_perm flags perm (flags.nameOf metric)
  exact distinguished labels (total_perm.mem_iff.mp labels_mem) ne
    (mt metric_perm.mem_iff.mpr missing) other
    ((total_perm.append metric_perm).mem_iff.mp mem)

section

variable (apart : flags.Apart) (unconditional : metric ∈ unconditional)
include apart unconditional

theorem mem_zeroLabels_of_distinguished (distinguished : Distinguished flags seen metric)
    (labels : LabelPairs) :
    labels ∈ zeroLabels flags seen (flags.nameOf metric) ↔
      labels ≠ [] ∧ labels ∈ reducedLabels flags seen (flags.totalOf metric) ∧
        labels ∉ reducedLabels flags seen (flags.nameOf metric) := by
  rw [mem_zeroLabels_iff apart unconditional]
  refine and_congr_right fun ne => ⟨?_, ?_⟩
  · rintro ⟨no_other, found⟩
    exact ⟨mem_of_find?_eq_some found, fun present => no_other labels present rfl⟩
  · rintro ⟨labels_mem, missing⟩
    have only := distinguished labels labels_mem ne missing
    refine ⟨fun other mem same => ?_, ?_⟩
    · exact missing (only other (mem_append_right _ mem) same ▸ mem)
    · have some_found : ((reducedLabels flags seen (flags.totalOf metric)).find? fun other =>
          decide (labelsKey other = labelsKey labels)).isSome :=
        find?_isSome.mpr ⟨labels, labels_mem, by simp⟩
      obtain ⟨first, found⟩ := Option.isSome_iff_exists.mp some_found
      have same : labelsKey first = labelsKey labels := by simpa using find?_some found
      rw [found, only first (mem_append_left _ (mem_of_find?_eq_some found)) same]

theorem zeroFilled_of_distinguished (distinguished : Distinguished flags seen metric) :
    ZeroFilled flags seen metric := by
  intro labels mem ne
  have zero_iff := mem_zeroLabels_of_distinguished apart unconditional distinguished labels
  rw [count_lines apart unconditional, (nodup_zeroLabels apart unconditional).count]
  split
  · next zero_mem => rw [if_neg (zero_iff.mp zero_mem).2.2]
  · next not_zero =>
    rw [if_pos]
    by_contra missing
    exact not_zero (zero_iff.mpr ⟨ne, mem, missing⟩)

theorem distinguished_of_zeroFilled (filled : ZeroFilled flags seen metric) :
    Distinguished flags seen metric := by
  have wrote {labels : LabelPairs}
      (labels_mem : labels ∈ reducedLabels flags seen (flags.totalOf metric))
      (ne : labels ≠ [])
      (missing : labels ∉ reducedLabels flags seen (flags.nameOf metric)) :
      labels ∈ zeroLabels flags seen (flags.nameOf metric) := by
    have one := filled labels labels_mem ne
    rw [count_lines apart unconditional, if_neg missing] at one
    exact count_pos_iff.mp (one ▸ Nat.one_pos)
  intro labels labels_mem ne missing other mem same
  obtain ⟨-, no_other, found⟩ :=
    (mem_zeroLabels_iff apart unconditional).mp (wrote labels_mem ne missing)
  rcases mem_append.mp mem with in_total | in_metric
  · have other_missing : other ∉ reducedLabels flags seen (flags.nameOf metric) :=
      fun in_metric => no_other other in_metric same
    have other_nonempty : other ≠ [] := by
      rintro rfl
      exact ne (labelsKey_eq_empty_iff.mp same.symm)
    obtain ⟨-, -, other_found⟩ :=
      (mem_zeroLabels_iff apart unconditional).mp (wrote in_total other_nonempty other_missing)
    rw [same, found] at other_found
    exact (Option.some.inj other_found).symm
  · exact absurd same (no_other other in_metric)

end

/-- The zero samples of a derived metric are the right ones, in whatever order the variables are
visited, exactly when the recorded text tells the missing labels from all others. -/
theorem zeroFilled_iff_distinguished (flags : ServiceFlags) (apart : flags.Apart)
    (visited : List DumpedVariable) (metric : DerivedMetric)
    (unconditional : metric ∈ unconditional) :
    (ZeroFilled flags visited metric ∧ ∀ order, order.Perm visited → ∀ labels,
      zero (flags.nameOf metric) labels ∈ lines flags order ↔
        zero (flags.nameOf metric) labels ∈ lines flags visited) ↔
    Distinguished flags visited metric := by
  constructor
  · exact fun both => distinguished_of_zeroFilled apart unconditional both.1
  · intro distinguished
    refine ⟨zeroFilled_of_distinguished apart unconditional distinguished, ?_⟩
    intro order perm labels
    have distinguished_order := distinguished_of_perm perm distinguished
    rw [← count_pos_iff, ← count_pos_iff, count_lines apart unconditional,
      count_lines apart unconditional, count_pos_iff, count_pos_iff,
      mem_zeroLabels_of_distinguished apart unconditional distinguished_order,
      mem_zeroLabels_of_distinguished apart unconditional distinguished,
      (reducedLabels_perm flags perm (flags.totalOf metric)).mem_iff,
      (reducedLabels_perm flags perm (flags.nameOf metric)).mem_iff]

end Order

def requestTotal (bname : String) (labels : LabelPairs) : DumpedVariable :=
  ⟨bname, "1", ⟨"c_request_total", "", labels, .counter⟩⟩

theorem zeroFilled_iff_distinguished_defaults : defaults.Apart ∧ cliError ∈ unconditional ∧
    ZeroFilled .defaults [requestTotal "a" [("method", "Get")]] .cliError := by
  refine ⟨apart_defaults, by decide, ((zeroFilled_iff_distinguished .defaults apart_defaults _
    .cliError (by decide)).mpr ?_).1⟩
  unfold Distinguished
  decide +kernel

/-- Two different label lists have one key: only the first of them gets a zero sample. -/
theorem not_zeroFilled : ¬ZeroFilled .defaults [requestTotal "a" [("method", "Get;caller:web")],
        requestTotal "b" [("method", "Get"), ("caller", "web")]] .cliError ∧
      zero "c_request_fail" [("method", "Get"), ("caller", "web")] ∈
        lines .defaults [requestTotal "a" [("method", "Get"), ("caller", "web")],
          requestTotal "b" [("method", "Get;caller:web")]] := by
  refine ⟨fun filled => ?_, by decide⟩
  have one := filled [("method", "Get"), ("caller", "web")] (by decide) (by decide)
  revert one
  decide

end MetricsService
end McBrpc
