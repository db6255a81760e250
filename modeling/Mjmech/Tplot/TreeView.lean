import Mathlib.Data.List.Basic

/-! The data pane of `tplot2.cc`. `TreeView` keeps, for each record of the log, the data of
the record's latest item at the time shown. `Update` seeks afresh on the first call, on a
rewind or on a jump of more than a second, and otherwise steps forward through the items
from `last_index_` on. `FileReader` (mjlib, not under `src/`) is modelled as its callers use
it: items at increasing indices, `items(start)` the items from index `start` on, and
`Seek(t)` the index of each record's latest item at or before `t`. Times are `ptime`s in
microseconds. The incremental path shows what a fresh seek would (`update_shows_latest`), and
each `Step` from a time shown gives every record what `Seek` gives it (`step_data_eq_seek`). -/
namespace Mjmech.Tplot

/-- `FileReader::Item`: its index in the log, its record, timestamp and encoded data. -/
structure Item (Record : Type) where
  index : ℕ
  record : Record
  timestamp : ℤ
  data : String

/-- `FileReader`: the records of a log and its items, at increasing indices. -/
structure FileReader (Record : Type) where
  records : List Record
  log : List (Item Record)
  ordered : log.Pairwise (·.index < ·.index)

/-- The log's items are in non-decreasing timestamp order by index, as `TreeView::Step`'s
early break assumes. -/
def TimeOrdered {Record : Type} (reader : FileReader Record) : Prop :=
  ∀ x ∈ reader.log, ∀ y ∈ reader.log, x.index < y.index → x.timestamp ≤ y.timestamp

/-- `TreeView`'s state: the time last shown (`not_a_date_time` is `none`), `last_index_`,
and `data_`. -/
structure TreeView (Record : Type) where
  lastTimestamp : Option ℤ
  lastIndex : ℕ
  data : Record → Option String

section Model

variable {Record : Type} [DecidableEq Record] (reader : FileReader Record)

/-- `items()` from `options.start`: the items from index `start` on, in index order. -/
def FileReader.items (start : ℕ) : List (Item Record) :=
  reader.log.filter (start ≤ ·.index)

/-- The last item of `record` among those at or before `t`. -/
def FileReader.latest (record : Record) (t : ℤ) : Option (Item Record) :=
  ((reader.log.filter (·.timestamp ≤ t)).filter (·.record = record)).getLast?

/-- `FileReader::Seek(t)`: each record with an item at or before `t`, and the index of its
latest such item. -/
def FileReader.seek (t : ℤ) : List (Record × ℕ) :=
  reader.records.filterMap fun record => (reader.latest record t).map fun item => (record, item.index)

/-- What the pane should show for `record` at `t`: the data of its latest item at or before
`t`, or the empty string when there is none. -/
def FileReader.shown (record : Record) (t : ℤ) : String :=
  ((reader.latest record t).map (·.data)).getD ""

/-- `data_[record] = value`. -/
def setData (data : Record → Option String) (record : Record) (value : String) :
    Record → Option String :=
  Function.update data record (some value)

/-- The data of the last of `items` that belongs to `record`. -/
def lastData (items : List (Item Record)) (record : Record) : Option String :=
  ((items.filter (·.record = record)).getLast?).map (·.data)

/-- The body of `Seek`'s loop over `reader_->Seek(timestamp)`: the record's item is the first
of `items(start = index)`. -/
def seekItem (acc : ℕ × (Record → Option String)) (pair : Record × ℕ) :
    ℕ × (Record → Option String) :=
  match (reader.items pair.2).head? with
  | some item => (if item.index > acc.1 then item.index else acc.1, setData acc.2 pair.1 item.data)
  | none => acc

/-- `TreeView::Seek`: every record blank, then each record's latest item at or before `t`,
with `last_index_` the greatest of their indices. -/
def TreeView.seek (view : TreeView Record) (t : ℤ) : TreeView Record :=
  let blank := reader.records.foldl (fun data record => setData data record "") fun _ => none
  let out := (reader.seek t).foldl (seekItem reader) (0, blank)
  { view with lastIndex := out.1, data := out.2 }

/-- The loop of `TreeView::Step`: apply the items in order up to the first one past `t`. -/
def stepItems (t : ℤ) : List (Item Record) → ℕ × (Record → Option String) →
    ℕ × (Record → Option String)
  | [], acc => acc
  | item :: rest, acc =>
    if item.timestamp > t then acc
    else stepItems t rest
      (if item.index > acc.1 then item.index else acc.1, setData acc.2 item.record item.data)

/-- `TreeView::Step`: from `last_index_` forward to `t`. -/
def TreeView.step (view : TreeView Record) (t : ℤ) : TreeView Record :=
  let out := stepItems t (reader.items view.lastIndex) (view.lastIndex, view.data)
  { view with lastIndex := out.1, data := out.2 }

/-- `TreeView::Update` up to `Render`: seek on the first call, on a rewind, or on a jump of
more than one second; step otherwise. -/
def TreeView.update (view : TreeView Record) (t : ℤ) : TreeView Record :=
  let moved := match view.lastTimestamp with
    | none => view.seek reader t
    | some last => if t < last ∨ t - last > 1000000 then view.seek reader t else view.step reader t
  { moved with lastTimestamp := some t }

/-- `TreeView` as constructed. -/
def TreeView.init : TreeView Record := ⟨none, 0, fun _ => none⟩

/-- The view shows time `t`: each record's latest data at `t`, and every item before
`last_index_` is at or before `t`. -/
def Shows (view : TreeView Record) (t : ℤ) : Prop :=
  (∀ record ∈ reader.records, view.data record = some (reader.shown record t)) ∧
  ∀ item ∈ reader.log, item.index < view.lastIndex → item.timestamp ≤ t

/-- `value` is what the pane should show for `record` at `t`: the data of the record's item
with the greatest index among those at or before `t`, or the empty string when it has
none. -/
def LatestData (record : Record) (t : ℤ) (value : String) : Prop :=
  (∃ item ∈ reader.log, item.record = record ∧ item.timestamp ≤ t ∧ item.data = value ∧
    ∀ other ∈ reader.log, other.record = record → other.timestamp ≤ t → other.index ≤ item.index) ∨
  (value = "" ∧ ∀ other ∈ reader.log, other.record = record → t < other.timestamp)

/-- `Update`'s invariant: a view that has shown a time shows it. -/
def Current (view : TreeView Record) : Prop :=
  ∀ t₀, view.lastTimestamp = some t₀ → Shows reader view t₀

/-- `data_` after writing each of `items` in turn. -/
def applyItems (items : List (Item Record)) (data : Record → Option String) :
    Record → Option String :=
  items.foldl (fun data item => setData data item.record item.data) data

end Model

section Order

variable {Record : Type} {reader : FileReader Record} {items : List (Item Record)} {t : ℤ}

/-- Over items whose timestamps never decrease, the loop's break keeps exactly the items at or
before `t`. -/
theorem takeWhile_eq_filter (sorted : items.Pairwise (·.timestamp ≤ ·.timestamp)) :
    items.takeWhile (·.timestamp ≤ t) = items.filter (·.timestamp ≤ t) := by
  induction items with
  | nil => rfl
  | cons item rest ih =>
    obtain ⟨first, sorted⟩ := List.pairwise_cons.mp sorted
    by_cases due : item.timestamp ≤ t
    · simp [List.takeWhile_cons, List.filter_cons, due, ih sorted]
    · have none : rest.filter (·.timestamp ≤ t) = [] :=
        List.filter_eq_nil_iff.mpr fun other mem => by
          simpa using Int.not_le.mpr (Int.lt_of_lt_of_le (Int.not_le.mp due) (first other mem))
      simp [List.takeWhile_cons, List.filter_cons, due, none]

/-- A log in index order is its items before index `start` followed by `items(start)`. -/
theorem log_split (start : ℕ) : ∀ {log : List (Item Record)}, log.Pairwise (·.index < ·.index) →
    log = log.filter (·.index < start) ++ log.filter (start ≤ ·.index)
  | [], _ => rfl
  | item :: rest, ordered => by
    obtain ⟨first, ordered⟩ := List.pairwise_cons.mp ordered
    have split := log_split start ordered
    by_cases early : item.index < start
    · simpa [List.filter_cons, early, Nat.not_le.mpr early] using congrArg (item :: ·) split
    · have none : rest.filter (·.index < start) = [] :=
        List.filter_eq_nil_iff.mpr fun other mem => by
          simpa using Nat.le_of_lt (Nat.lt_of_le_of_lt (Nat.not_lt.mp early) (first other mem))
      simp only [none, List.nil_append] at split
      simpa [List.filter_cons, early, Nat.not_lt.mp early, none] using congrArg (item :: ·) split

theorem items_timeOrdered (ordered : TimeOrdered reader) (start : ℕ) :
    (reader.items start).Pairwise (·.timestamp ≤ ·.timestamp) :=
  List.Pairwise.imp_of_mem (fun mx my lt => ordered _ (List.mem_filter.mp mx).1 _
    (List.mem_filter.mp my).1 lt) (reader.ordered.filter _)

/-- When every item before `start` is at or before `t`, the items at or before `t` are those
before `start` followed by those of `items(start)` at or before `t`. -/
theorem filter_timestamp_split (reader : FileReader Record) (start : ℕ) (t : ℤ)
    (early : ∀ item ∈ reader.log, item.index < start → item.timestamp ≤ t) :
    reader.log.filter (·.timestamp ≤ t) =
      reader.log.filter (·.index < start) ++ (reader.items start).filter (·.timestamp ≤ t) := by
  conv_lhs => rw [log_split start reader.ordered]
  rw [List.filter_append, FileReader.items]
  congr 1
  exact List.filter_eq_self.mpr fun item mem => by
    have inside := List.mem_filter.mp mem
    simpa using early item inside.1 (by simpa using inside.2)

/-- The first of `items(start = index)` is the item at that index. -/
theorem items_head {item : Item Record} (mem : item ∈ reader.log) :
    (reader.items item.index).head? = some item := by
  obtain ⟨before, after, split⟩ := List.append_of_mem mem
  have ordered := reader.ordered
  rw [split, List.pairwise_append] at ordered
  have none : before.filter (item.index ≤ ·.index) = [] :=
    List.filter_eq_nil_iff.mpr fun other inside => by
      simpa using ordered.2.2 other inside item (List.mem_cons_self _ _)
  simp [FileReader.items, split, List.filter_append, none]

end Order

section Lemmas

variable {Record : Type} [DecidableEq Record] {reader : FileReader Record}
  {items : List (Item Record)} {data : Record → Option String} {record : Record} {t t₀ : ℤ}

@[simp] theorem setData_apply (record other : Record) (value : String) :
    setData data record value other = if other = record then some value else data other :=
  Function.update_apply ..

theorem lastData_append (before after : List (Item Record)) :
    lastData (before ++ after) record = (lastData after record).or (lastData before record) := by
  simp only [lastData, List.filter_append, List.getLast?_append]
  cases (after.filter (·.record = record)).getLast? <;> rfl

theorem lastData_singleton (item : Item Record) :
    lastData [item] record = if item.record = record then some item.data else none := by
  by_cases same : item.record = record <;> simp [lastData, same]

theorem lastData_eq_none : lastData items record = none ↔ ∀ item ∈ items, item.record ≠ record := by
  rw [lastData, Option.map_eq_none', List.getLast?_eq_none_iff, List.filter_eq_nil_iff]
  simp only [decide_eq_true_eq, ne_eq]

/-- Writing items keeps, for each record, the data of its last item. -/
theorem applyItems_apply : applyItems items data record = (lastData items record).or (data record) := by
  induction items using List.reverseRecOn with
  | nil => rfl
  | append_singleton items item ih =>
    have write : applyItems (items ++ [item]) data =
        setData (applyItems items data) item.record item.data := List.foldl_append ..
    rw [write, setData_apply, lastData_append, lastData_singleton]
    by_cases same : item.record = record
    · simp [same]
    · simp [same, Ne.symm same, ih]

/-- The shown data is the last write among the items at or before `t`. -/
theorem shown_eq : reader.shown record t = (lastData (reader.log.filter (·.timestamp ≤ t)) record).getD "" :=
  rfl

theorem latest_mem {item : Item Record} (found : reader.latest record t = some item) :
    item ∈ reader.log ∧ item.timestamp ≤ t ∧ item.record = record := by
  have mem := List.mem_of_getLast?_eq_some found
  simp only [List.mem_filter, decide_eq_true_eq] at mem
  exact ⟨mem.1.1, mem.1.2, mem.2⟩

theorem stepItems_data (items : List (Item Record)) (acc : ℕ × (Record → Option String)) :
    (stepItems t items acc).2 = applyItems (items.takeWhile (·.timestamp ≤ t)) acc.2 := by
  induction items generalizing acc with
  | nil => rfl
  | cons item rest ih =>
    by_cases due : item.timestamp ≤ t
    · simp [stepItems, Int.not_lt.mpr due, due, ih, applyItems]
    · simp [stepItems, Int.not_le.mp due, due, applyItems]

theorem stepItems_index (items : List (Item Record)) (acc : ℕ × (Record → Option String)) :
    (stepItems t items acc).1 = acc.1 ∨
      ∃ item ∈ items.takeWhile (·.timestamp ≤ t), (stepItems t items acc).1 = item.index := by
  induction items generalizing acc with
  | nil => exact .inl rfl
  | cons item rest ih =>
    by_cases due : item.timestamp ≤ t
    · have step : stepItems t (item :: rest) acc = stepItems t rest
          (if item.index > acc.1 then item.index else acc.1, setData acc.2 item.record item.data) := by
        simp [stepItems, Int.not_lt.mpr due]
      have take : (item :: rest).takeWhile (·.timestamp ≤ t) =
          item :: rest.takeWhile (·.timestamp ≤ t) := by
        simp [List.takeWhile_cons, due]
      rw [step, take]
      rcases ih (if item.index > acc.1 then item.index else acc.1, setData acc.2 item.record item.data)
        with same | ⟨other, mem, eq⟩
      · rw [same]
        split_ifs
        · exact .inr ⟨item, List.mem_cons_self _ _, rfl⟩
        · exact .inl rfl
      · exact .inr ⟨other, List.mem_cons_of_mem _ mem, eq⟩
    · left
      simp only [stepItems, Int.not_le.mp due, if_true]

@[simp] theorem TreeView.step_data (view : TreeView Record) :
    (view.step reader t).data = (stepItems t (reader.items view.lastIndex) (view.lastIndex, view.data)).2 :=
  rfl

@[simp] theorem TreeView.step_lastIndex (view : TreeView Record) :
    (view.step reader t).lastIndex =
      (stepItems t (reader.items view.lastIndex) (view.lastIndex, view.data)).1 :=
  rfl

/-- One `Step` forward from a view showing `t₀` shows `t`. -/
theorem step_shows (ordered : TimeOrdered reader) {view : TreeView Record}
    (shows : Shows reader view t₀) (later : t₀ ≤ t) : Shows reader (view.step reader t) t := by
  have taken := takeWhile_eq_filter (items_timeOrdered ordered view.lastIndex) (t := t)
  have splitNow := filter_timestamp_split reader view.lastIndex t
    fun item mem early => Int.le_trans (shows.2 item mem early) later
  have splitThen := filter_timestamp_split reader view.lastIndex t₀ shows.2
  constructor
  · intro record member
    rw [TreeView.step_data, stepItems_data, taken, applyItems_apply]
    dsimp only
    rw [shows.1 record member, shown_eq, shown_eq, splitNow, splitThen, lastData_append,
      lastData_append]
    cases fresh : lastData ((reader.items view.lastIndex).filter (·.timestamp ≤ t)) record with
    | some value => rfl
    | none =>
      have stale : lastData ((reader.items view.lastIndex).filter (·.timestamp ≤ t₀)) record = none :=
        lastData_eq_none.mpr fun item mem => lastData_eq_none.mp fresh item <|
          List.Sublist.mem mem <| List.monotone_filter_right _ fun _ early =>
            by simpa using Int.le_trans (by simpa using early) later
      simp [stale]
  · intro item mem before
    rcases stepItems_index (t := t) (reader.items view.lastIndex) (view.lastIndex, view.data) with
      same | ⟨last, applied, eq⟩
    · exact Int.le_trans (shows.2 item mem (by simpa [same] using before)) later
    · rw [taken] at applied
      have inside := List.mem_filter.mp applied
      have due : last.timestamp ≤ t := by simpa using inside.2
      exact Int.le_trans (ordered item mem last (List.mem_filter.mp inside.1).1
        (by simpa [eq] using before)) due

@[simp] theorem TreeView.seek_data (view : TreeView Record) :
    (view.seek reader t).data = ((reader.seek t).foldl (seekItem reader)
      (0, reader.records.foldl (fun data record => setData data record "") fun _ => none)).2 :=
  rfl

@[simp] theorem TreeView.seek_lastIndex (view : TreeView Record) :
    (view.seek reader t).lastIndex = ((reader.seek t).foldl (seekItem reader)
      (0, reader.records.foldl (fun data record => setData data record "") fun _ => none)).1 :=
  rfl

theorem blank_apply (records : List Record) (init : Record → Option String) :
    records.foldl (fun data record => setData data record "") init record =
      if record ∈ records then some "" else init record := by
  induction records generalizing init with
  | nil => simp
  | cons first rest ih =>
    by_cases same : record = first
    · subst same; simp [ih]
    · simp [ih, same]

/-- `Seek`'s loop over records whose latest item it is handed: each such record gets its
shown data, and `last_index_` stays put or is the index of an item at or before `t`. -/
theorem seekItem_fold (pairs : List (Record × ℕ)) (acc : ℕ × (Record → Option String))
    (valid : ∀ pair ∈ pairs, ∃ item, reader.latest pair.1 t = some item ∧ pair.2 = item.index) :
    (∀ record, (pairs.foldl (seekItem reader) acc).2 record =
      if record ∈ pairs.map (·.1) then some (reader.shown record t) else acc.2 record) ∧
    ((pairs.foldl (seekItem reader) acc).1 = acc.1 ∨
      ∃ item ∈ reader.log, item.timestamp ≤ t ∧ (pairs.foldl (seekItem reader) acc).1 = item.index) := by
  induction pairs generalizing acc with
  | nil => exact ⟨fun _ => by simp, .inl rfl⟩
  | cons pair rest ih =>
    obtain ⟨item, found, index⟩ := valid pair (List.mem_cons_self _ _)
    obtain ⟨mem, due, -⟩ := latest_mem found
    have written : seekItem reader acc pair =
        (if item.index > acc.1 then item.index else acc.1, setData acc.2 pair.1 item.data) := by
      simp [seekItem, index, items_head mem]
    have shown : reader.shown pair.1 t = item.data := by simp [FileReader.shown, found]
    obtain ⟨data, last⟩ := ih (seekItem reader acc pair) fun p inside => valid p (List.mem_cons_of_mem _ inside)
    refine ⟨fun record => ?_, ?_⟩
    · rw [List.foldl_cons, data, written]
      by_cases same : record = pair.1
      · simp only [same, shown, setData_apply, if_true, ite_self, List.map_cons, List.mem_cons, true_or]
      · by_cases later : record ∈ rest.map (·.1) <;> simp [same, later]
    · rw [List.foldl_cons]
      rcases last with same | later
      · rw [same, written]
        split_ifs
        · exact .inr ⟨item, mem, due, rfl⟩
        · exact .inl rfl
      · exact .inr later

/-- A `Seek` shows its time. -/
theorem seek_shows (ordered : TimeOrdered reader) (view : TreeView Record) (t : ℤ) :
    Shows reader (view.seek reader t) t := by
  have valid : ∀ pair ∈ reader.seek t, ∃ item, reader.latest pair.1 t = some item ∧
      pair.2 = item.index := by
    intro pair mem
    obtain ⟨record, -, found⟩ := List.mem_filterMap.mp mem
    obtain ⟨item, latest, rfl⟩ := Option.map_eq_some'.mp found
    exact ⟨item, latest, rfl⟩
  obtain ⟨data, last⟩ := seekItem_fold (reader.seek t) (0, _) valid
  constructor
  · intro record member
    rw [TreeView.seek_data, data]
    dsimp only
    rw [blank_apply, if_pos member]
    split_ifs with sought
    · rfl
    · cases latest : reader.latest record t with
      | none => simp [FileReader.shown, latest]
      | some item =>
        exact absurd (List.mem_map.mpr ⟨(record, item.index), List.mem_filterMap.mpr
          ⟨record, member, by simp [latest]⟩, rfl⟩) sought
  · intro other mem before
    rcases last with zero | ⟨item, inside, due, eq⟩
    · rw [TreeView.seek_lastIndex, zero] at before; cases before
    · rw [TreeView.seek_lastIndex, eq] at before
      exact Int.le_trans (ordered other mem item inside before) due

/-- `Update` keeps its invariant. -/
theorem update_current (ordered : TimeOrdered reader) {view : TreeView Record}
    (current : Current reader view) (t : ℤ) : Current reader (view.update reader t) := by
  intro shown latest
  simp only [TreeView.update, Option.some.injEq] at latest
  subst latest
  cases last : view.lastTimestamp with
  | none => simpa only [TreeView.update, last] using seek_shows ordered view t
  | some last₀ =>
    by_cases jump : t < last₀ ∨ t - last₀ > 1000000
    · simpa only [TreeView.update, last, jump, if_true] using seek_shows ordered view t
    · have later : last₀ ≤ t := Int.not_lt.mp fun back => jump (.inl back)
      simpa only [TreeView.update, last, jump, if_false] using
        step_shows ordered (current last₀ last) later

/-- The greatest-index reading of `shown`. -/
theorem shown_latest (record : Record) (t : ℤ) :
    LatestData reader record t (reader.shown record t) := by
  cases latest : reader.latest record t with
  | some item =>
    obtain ⟨mem, due, owner⟩ := latest_mem latest
    refine .inl ⟨item, mem, owner, due, by simp [FileReader.shown, latest], fun other inside same early => ?_⟩
    obtain ⟨before, split⟩ := List.getLast?_eq_some_iff.mp latest
    have member : other ∈ before ++ [item] := by
      rw [← split]; simp [inside, same, early]
    have ordered := (reader.ordered.filter (·.timestamp ≤ t)).filter (·.record = record)
    rw [split, List.pairwise_append] at ordered
    rcases List.mem_append.mp member with earlier | last
    · exact Nat.le_of_lt (ordered.2.2 other earlier item (List.mem_singleton_self _))
    · rw [List.mem_singleton.mp last]
  | none =>
    refine .inr ⟨by simp [FileReader.shown, latest], fun other inside same => ?_⟩
    have empty := List.getLast?_eq_none_iff.mp latest
    rw [List.filter_eq_nil_iff] at empty
    exact Int.not_le.mp fun early => empty other (by simp [inside, early]) (by simpa using same)

/-- Whatever times the pane is driven through, forward moves of at most a second by `Step` and
rewinds or jumps by `Seek`, after each `Update(t)` every record shows the data of its item
with the greatest index at or before `t`, or the empty string, and so agrees with a fresh
`Seek(t)`. -/
theorem update_shows_latest (ordered : TimeOrdered reader) (times : List ℤ) (t : ℤ)
    (record : Record) (member : record ∈ reader.records) :
    ∃ value, ((times ++ [t]).foldl (TreeView.update reader) TreeView.init).data record = some value ∧
      (TreeView.init.seek reader t).data record = some value ∧ LatestData reader record t value := by
  have current : Current reader (times.foldl (TreeView.update reader) TreeView.init) := by
    induction times using List.reverseRecOn with
    | nil => intro _ none; cases none
    | append_singleton times time ih =>
      rw [List.foldl_append]; exact update_current ordered ih time
  have shows := update_current ordered current t t (by simp [TreeView.update])
  refine ⟨reader.shown record t, ?_, (seek_shows ordered _ t).1 record member, shown_latest record t⟩
  rw [List.foldl_append]
  exact shows.1 record member

/-- A two-record log: `imu` at 0 s and 10 s, `qc` at 5 s, at file positions 0, 10 and 20. -/
def benchReader : FileReader String where
  records := ["imu", "qc"]
  log := [⟨0, "imu", 0, "a"⟩, ⟨10, "qc", 5000000, "b"⟩, ⟨20, "imu", 10000000, "c"⟩]
  ordered := by decide

/-- Played to 7 s, stepped to 7.5 s, rewound to 6 s, jumped to 12 s. -/
theorem update_shows_latest_on_bench : ∃ value,
    (([7000000, 7500000, 6000000] ++ [12000000]).foldl (TreeView.update benchReader)
      TreeView.init).data "imu" = some value ∧
    (TreeView.init.seek benchReader 12000000).data "imu" = some value ∧
    LatestData benchReader "imu" 12000000 value :=
  update_shows_latest (by unfold TimeOrdered; decide) [7000000, 7500000, 6000000] 12000000 "imu"
    (by decide)

/-- `Step` is `Seek` done incrementally: from a view that shows `t₀`, stepping forward to any
`t ≥ t₀` leaves every record with the data a fresh `Seek(t)` gives it, however far `t` is. -/
theorem step_data_eq_seek (ordered : TimeOrdered reader) {view : TreeView Record}
    (shows : Shows reader view t₀) (later : t₀ ≤ t) (member : record ∈ reader.records) :
    (view.step reader t).data record = (view.seek reader t).data record := by
  rw [(step_shows ordered shows later).1 record member, (seek_shows ordered view t).1 record member]

/-- Sought to 7 s, stepped over the `imu` item at 10 s to 12 s. -/
theorem step_data_eq_seek_on_bench :
    ((TreeView.init.seek benchReader 7000000).step benchReader 12000000).data "imu" =
      ((TreeView.init.seek benchReader 7000000).seek benchReader 12000000).data "imu" :=
  step_data_eq_seek (by unfold TimeOrdered; decide)
    (seek_shows (by unfold TimeOrdered; decide) _ 7000000) (by decide) (by decide)

end Lemmas

end Mjmech.Tplot
