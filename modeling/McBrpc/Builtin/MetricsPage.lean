import McBrpc.Builtin.MetricsService

/-!
# The metrics of the page

The page is a sequence of metrics with different names.  Each variable is written once, in the
metric of its name; a metric is written if it has a variable or a zero sample.
-/

namespace McBrpc.MetricsService

open List OrderedMap ServiceFlags

def named (visited : List DumpedVariable) (name : String) : List BvarMsg :=
  (visited.filter fun var => decide (var.msg.name = name)).map DumpedVariable.bvarMsg

def nonempty? (items : List BvarMsg) : Option (List BvarMsg) :=
  if items = [] then none else some items

variable {flags : ServiceFlags} {visited : List DumpedVariable}

section Maps

theorem named_concat (visited : List DumpedVariable) (var : DumpedVariable) (name : String) :
    named (visited ++ [var]) name =
      named visited name ++ if name = var.msg.name then [var.bvarMsg] else [] := by
  rw [named, filter_append, map_append]
  congr 1
  split
  · next same => simp [same]
  · next other => simp [Ne.symm other]

theorem find?_dumped (visited : List DumpedVariable) (name : String) :
    (dumped visited).find? name = nonempty? (named visited name) := by
  induction visited using List.reverseRecOn with
  | nil => rfl
  | append_singleton visited var ih =>
    rw [dumped, foldl_append, foldl_cons, foldl_nil, ← dumped, dumpMetrics,
      find?_alter, ih, named_concat]
    split
    · next same =>
      rw [← same, ih, nonempty?, nonempty?]
      split
      · next empty => simp [empty]
      · simp
    · rw [append_nil]

theorem find?_setTotalQpsMetrics (state : MsgMap × MsgMap) (key name : String) :
    (setTotalQpsMetrics state key).1.find? name =
        (if name = key then (state.1.find? key).or (state.2.find? key) else state.1.find? name) ∧
      (setTotalQpsMetrics state key).2.find? name =
        if name = key then none else state.2.find? name := by
  rw [setTotalQpsMetrics]
  split
  · next absent =>
    rw [absent, Option.or_none]
    constructor
    · split
      · next same => rw [same]
      · rfl
    · split
      · next same => rw [same, absent]
      · rfl
  · next array found =>
    rw [found, find?_alter, find?_alter]
    refine ⟨?_, rfl⟩
    split
    · cases state.1.find? key <;> rfl
    · rfl

theorem find?_foldl_setTotalQpsMetrics (content : MsgMap) (keys : List String) (name : String) :
    (keys.foldl setTotalQpsMetrics (∅, content)).1.find? name =
        (if name ∈ keys then content.find? name else none) ∧
      (keys.foldl setTotalQpsMetrics (∅, content)).2.find? name =
        if name ∈ keys then none else content.find? name := by
  induction keys using List.reverseRecOn generalizing name with
  | nil => exact ⟨rfl, rfl⟩
  | append_singleton keys key ih =>
    rw [foldl_append, foldl_cons, foldl_nil]
    obtain ⟨totals_eq, message_eq⟩ :=
      find?_setTotalQpsMetrics (keys.foldl setTotalQpsMetrics (∅, content)) key name
    rw [totals_eq, message_eq, (ih key).1, (ih key).2, (ih name).1, (ih name).2]
    by_cases same : name = key
    · subst same
      by_cases before : name ∈ keys
      · simp [before]
      · simp [before]
    · simp [same]

theorem find?_moved (name : String) : (moved flags visited).1.find? name =
        (if name ∈ flags.totalNames then nonempty? (named visited name) else none) ∧
      (moved flags visited).2.find? name =
        if name ∈ flags.totalNames then none else nonempty? (named visited name) := by
  rw [moved, ← find?_dumped]
  exact find?_foldl_setTotalQpsMetrics (dumped visited) flags.totalNames name

/-- The first derived metric of this name that gets a placeholder. -/
def placeholderAt (flags : ServiceFlags) (totals : MsgMap) (metrics : List DerivedMetric)
    (name : String) : Option DerivedMetric :=
  metrics.find? fun metric =>
    decide (flags.nameOf metric = name) && (totals.find? (flags.totalOf metric)).isSome

theorem find?_setPlaceholderData (totals content : MsgMap) (metric : DerivedMetric)
    (name : String) :
    (setPlaceholderData flags totals content metric).find? name =
      (content.find? name).or ((placeholderAt flags totals [metric] name).map fun metric =>
        [placeholderMsg flags metric]) := by
  rw [setPlaceholderData, placeholderAt, find?_singleton]
  by_cases present : (totals.find? (flags.totalOf metric)).isSome
  · rw [if_pos present, find?_alter, present, Bool.and_true]
    by_cases same : name = flags.nameOf metric
    · rw [if_pos same, ← same]
      cases content.find? name <;> simp
    · rw [if_neg same]
      simp [Ne.symm same]
  · rw [if_neg present]
    simp [present]

theorem find?_foldl_setPlaceholderData (totals content : MsgMap) (metrics : List DerivedMetric)
    (name : String) :
    (metrics.foldl (setPlaceholderData flags totals) content).find? name =
      (content.find? name).or ((placeholderAt flags totals metrics name).map fun metric =>
        [placeholderMsg flags metric]) := by
  induction metrics generalizing content with
  | nil => exact Option.or_none.symm
  | cons metric metrics ih =>
    have split_metrics : placeholderAt flags totals (metric :: metrics) name =
        (placeholderAt flags totals [metric] name).or
          (placeholderAt flags totals metrics name) := by
      rw [placeholderAt, ← singleton_append, find?_append]
      rfl
    rw [foldl_cons, ih, find?_setPlaceholderData, Option.or_assoc, split_metrics, Option.map_or]

theorem find?_message (name : String) : (message flags visited).find? name =
      ((moved flags visited).2.find? name).or
        ((placeholderAt flags (moved flags visited).1 flags.placeholders name).map fun metric =>
          [placeholderMsg flags metric]) :=
  find?_foldl_setPlaceholderData _ _ _ _

/-- What stands after the configured name in the name of a derived metric. -/
def tailOf : DerivedMetric → String
  | .cliError | .svrError | .callError => "_fail"
  | .cliTo | .callTo => "_timeout"
  | .cliLogicError | .svrLogicError => "_logic_fail"

theorem exists_base (flags : ServiceFlags) (metric : DerivedMetric) :
    ∃ base, flags.nameOf metric = base ++ tailOf metric ∧
      flags.totalOf metric = base ++ "_total" := by
  cases metric <;> exact ⟨_, rfl, rfl⟩

theorem nameOf_not_mem_totalNames (flags : ServiceFlags) (metric : DerivedMetric) :
    flags.nameOf metric ∉ flags.totalNames := by
  have total_ends : ∀ name ∈ flags.totalNames, name.toList.reverse.take 2 = ['l', 'a'] := by
    simp [totalNames, cliTotal, svrTotal, callTotal]
  intro is_total
  have ends := total_ends _ is_total
  cases metric <;> simp [nameOf] at ends

theorem totalOf_mem_totalNames (flags : ServiceFlags) (metric : DerivedMetric) :
    flags.totalOf metric ∈ flags.totalNames := by
  cases metric <;> simp [totalOf, totalNames]

variable {entry : String × List BvarMsg}

theorem of_mem_totals (mem : entry ∈ (moved flags visited).1.entries) :
    entry.1 ∈ flags.totalNames ∧ entry.2 = named visited entry.1 ∧ entry.2 ≠ [] := by
  have found := find?_eq_some_iff.mpr mem
  rw [(find?_moved entry.1).1, nonempty?] at found
  split at found
  · next is_total =>
    split at found
    · cases found
    · next some_named =>
      have items_eq := Option.some.inj found
      exact ⟨is_total, items_eq.symm, items_eq ▸ some_named⟩
  · cases found

/-- A metric of the messages has variables, or is a placeholder of a total that has variables. -/
theorem of_mem_message (mem : entry ∈ (message flags visited).entries) :
    entry.1 ∉ flags.totalNames ∧
      (entry.2 = named visited entry.1 ∧ entry.2 ≠ [] ∨
        named visited entry.1 = [] ∧ ∃ metric, flags.nameOf metric = entry.1 ∧
          named visited (flags.totalOf metric) ≠ [] ∧ entry.2 = [placeholderMsg flags metric]) := by
  have found := find?_eq_some_iff.mpr mem
  rw [find?_message, Option.or_eq_some_iff] at found
  rcases found with dumped_found | ⟨absent, placed⟩
  · rw [(find?_moved entry.1).2, nonempty?] at dumped_found
    split at dumped_found
    · cases dumped_found
    · next not_total =>
      split at dumped_found
      · cases dumped_found
      · next some_named =>
        have items_eq := Option.some.inj dumped_found
        exact ⟨not_total, .inl ⟨items_eq.symm, items_eq ▸ some_named⟩⟩
  · obtain ⟨metric, placed, items_eq⟩ := Option.map_eq_some_iff.mp placed
    have found := find?_some placed
    simp only [Bool.and_eq_true, decide_eq_true_eq] at found
    obtain ⟨name_eq, present⟩ := found
    have not_total : entry.1 ∉ flags.totalNames := name_eq ▸ nameOf_not_mem_totalNames flags metric
    rw [(find?_moved entry.1).2, if_neg not_total, nonempty?] at absent
    rw [(find?_moved _).1, nonempty?] at present
    refine ⟨not_total, .inr ⟨?_, metric, name_eq, ?_, items_eq.symm⟩⟩
    · by_contra some_named
      rw [if_neg some_named] at absent
      cases absent
    · intro none_named
      simp [none_named] at present

theorem filter_placeholder (mem : entry ∈ (message flags visited).entries) :
    (entry.2.filter fun item => !item.isPlaceholder) = named visited entry.1 := by
  rcases (of_mem_message mem).2 with ⟨items_eq, -⟩ | ⟨none_named, metric, -, -, items_eq⟩
  · rw [items_eq, filter_eq_self]
    intro item item_mem
    obtain ⟨var, -, rfl⟩ := mem_map.mp item_mem
    rfl
  · rw [items_eq, none_named]
    rfl

end Maps

variable (flags : ServiceFlags) (visited : List DumpedVariable)

def zeroLabels (name : String) : List LabelPairs :=
  ((((named visited name).foldl (eraseItem flags)
    (backUp flags (moved flags visited).1 name)).entries.filter (writesZero flags name)).map
      Prod.snd)

/-- The name that a sample of a variable has, in a metric of the given type. -/
def sampleName (kind : MetricsDataType) (name bname : String) : String :=
  name ++ if name ∈ flags.totalNames then "" else suffixOf kind bname

def samples (kind : MetricsDataType) (name : String) : List MetricsLine :=
  ((named visited name).map fun item =>
    .item (sampleName flags kind name item.bname) item.msg.labels item.val) ++
  (zeroLabels flags visited name).map (.zero name)

/-- The type of a metric, which is that of its first variable. -/
def kindOf (items : List BvarMsg) : MetricsDataType :=
  (items.head?.map fun item => item.msg.type).getD .gauge

def metricLines (entry : String × List BvarMsg) : List MetricsLine :=
  if samples flags visited (kindOf entry.2) entry.1 = [] then []
  else
    .help entry.1 (metricsDesc entry.2) :: .type entry.1 (kindOf entry.2) ::
      samples flags visited (kindOf entry.2) entry.1

/-- All metrics, totals first. -/
def metrics : List (String × List BvarMsg) :=
  (moved flags visited).1.entries ++ (message flags visited).entries

variable {flags visited}

theorem foldl_annotate (header : List MetricsLine) (lines wrote : List MetricsLine)
    (writeAnnotate : Bool) :
    lines.foldl (annotate header) (writeAnnotate, wrote) =
      (writeAnnotate && lines.isEmpty,
        wrote ++ if lines = [] then [] else (if writeAnnotate then header else []) ++ lines) := by
  induction lines generalizing wrote writeAnnotate with
  | nil => simp
  | cons line lines ih =>
    rw [foldl_cons, annotate, ih]
    cases lines <;> simp

variable {name : String} {entry : String × List BvarMsg}

theorem backUp_of_mem_totalNames (totals : MsgMap) (is_total : name ∈ flags.totalNames)
    : backUp flags totals name = ∅ := by
  have other (metric : DerivedMetric) : name ≠ flags.nameOf metric :=
    fun same => nameOf_not_mem_totalNames flags metric (same ▸ is_total)
  rw [backUp, if_neg, if_neg, if_neg]
  · simp [other]
  · simp [other]
  · simp [other]

theorem zeroLabels_of_mem_totalNames (is_total : name ∈ flags.totalNames) :
    zeroLabels flags visited name = [] := by
  have erased (items : List BvarMsg) : items.foldl (eraseItem flags) ∅ = ∅ := by
    induction items with
    | nil => rfl
    | cons item items ih =>
      rw [foldl_cons, eraseItem, if_pos (.inr rfl), ih]
  rw [zeroLabels, backUp_of_mem_totalNames _ is_total, erased]
  rfl

theorem totalLines_eq (mem : entry ∈ (moved flags visited).1.entries) :
    totalLines entry = metricLines flags visited entry := by
  obtain ⟨is_total, items_eq, ne⟩ := of_mem_totals mem
  have samples_eq : samples flags visited (kindOf entry.2) entry.1 =
      entry.2.map fun item => .item entry.1 item.msg.labels item.val := by
    rw [samples, zeroLabels_of_mem_totalNames is_total, ← items_eq]
    simp [sampleName, is_total]
  rw [metricLines, samples_eq]
  obtain ⟨name, items⟩ := entry
  cases items with
  | nil => exact absurd rfl ne
  | cons first items => rfl

theorem messageLines_eq (mem : entry ∈ (message flags visited).entries) :
    messageLines flags (moved flags visited).1 entry = metricLines flags visited entry := by
  obtain ⟨not_total, cases_of⟩ := of_mem_message mem
  have ne : entry.2 ≠ [] := by
    rcases cases_of with ⟨-, ne⟩ | ⟨-, metric, -, -, items_eq⟩
    · exact ne
    · rw [items_eq]
      exact cons_ne_nil _ _
  have written := filter_placeholder mem
  obtain ⟨name, items⟩ := entry
  cases items with
  | nil => exact absurd rfl ne
  | cons first items =>
    have samples_eq : samples flags visited first.msg.type name =
        ((named visited name).map fun item =>
          .item (name ++ suffixOf first.msg.type item.bname) item.msg.labels item.val) ++
        (((named visited name).foldl (eraseItem flags)
          (backUp flags (moved flags visited).1 name)).entries.filter
            (writesZero flags name)).map fun entry => .zero name entry.2 := by
      rw [samples, zeroLabels, map_map]
      simp only [sampleName, if_neg not_total]
      rfl
    simp only [messageLines, written]
    rw [← foldl_append, ← samples_eq, foldl_annotate]
    rfl

theorem lines_eq :
    lines flags visited = (metrics flags visited).flatMap (metricLines flags visited) := by
  rw [lines, metrics, flatMap_append]
  congr 1
  · exact flatMap_congr fun entry mem => totalLines_eq mem
  · exact flatMap_congr fun entry mem => messageLines_eq mem

theorem mem_metrics_iff : entry ∈ metrics flags visited ↔
      (moved flags visited).1.find? entry.1 = some entry.2 ∨
        (message flags visited).find? entry.1 = some entry.2 := by
  rw [metrics, mem_append, find?_eq_some_iff, find?_eq_some_iff]

theorem nodup_metrics : ((metrics flags visited).map Prod.fst).Nodup := by
  rw [metrics, map_append, nodup_append]
  refine ⟨nodup_keys _, nodup_keys _, ?_⟩
  intro name name_mem other mem same
  obtain ⟨entry, entry_mem, rfl⟩ := mem_map.mp name_mem
  obtain ⟨entry', entry'_mem, rfl⟩ := mem_map.mp mem
  exact (of_mem_message entry'_mem).1 (same ▸ (of_mem_totals entry_mem).1)

theorem exists_mem_metrics (flags : ServiceFlags) (some_named : named visited name ≠ []) :
    (name, named visited name) ∈ metrics flags visited := by
  rw [mem_metrics_iff]
  by_cases is_total : name ∈ flags.totalNames
  · left
    rw [(find?_moved name).1, if_pos is_total]
    exact if_neg some_named
  · right
    rw [find?_message, (find?_moved name).2, if_neg is_total, nonempty?, if_neg some_named,
      Option.some_or]

theorem exists_mem_metrics_of_total {metric : DerivedMetric} (placed : metric ∈ flags.placeholders)
    (some_named : named visited (flags.totalOf metric) ≠ []) :
    ∃ items, (flags.nameOf metric, items) ∈ metrics flags visited := by
  have present : ((moved flags visited).1.find? (flags.totalOf metric)).isSome := by
    rw [(find?_moved _).1, if_pos (totalOf_mem_totalNames flags metric), nonempty?,
      if_neg some_named]
    rfl
  have found : (placeholderAt flags (moved flags visited).1 flags.placeholders
      (flags.nameOf metric)).isSome := by
    rw [placeholderAt, find?_isSome]
    exact ⟨metric, placed, by simp [present]⟩
  obtain ⟨other, found⟩ := Option.isSome_iff_exists.mp found
  cases dumped_eq : (moved flags visited).2.find? (flags.nameOf metric) with
  | some items =>
    refine ⟨items, mem_metrics_iff.mpr (.inr ?_)⟩
    rw [find?_message, dumped_eq, Option.some_or]
  | none =>
    refine ⟨[placeholderMsg flags other], mem_metrics_iff.mpr (.inr ?_)⟩
    rw [find?_message, dumped_eq, found]
    rfl

end McBrpc.MetricsService
