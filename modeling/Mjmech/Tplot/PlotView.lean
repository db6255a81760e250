import Mjmech.Tplot.Retrieve
import Mathlib.Data.List.Forall2

/-! The plot pane of `tplot2.cc`: its list of plots and the selected index, driven frame by
frame by a token dropped on the plot, the `Axis` combo, the `Remove` button and the `Plots`
combo. `AddPlot` builds a `PlotRetrieve` from the reader's records, runs its items loop over the
record's items, `getter.x(item)` and `getter.y(item)` as `float`s, and fits the plot's limits
with `std::min_element`, `std::max_element` and a `+ 1.0f` widening. A frame that reads through a
null record or walks undefined data, or erases past the end of `plots_`, is undefined behaviour
and ends the run (`none`). The selected index stays in range after every frame
(`frame_keeps_selection`), but `Remove` erases past the end exactly when there is no plot
(`remove_past_end_iff_empty`), as on the view's first frame (`remove_on_empty_view`). Along
every run, every plot dragged from the tree plots, item by item and in the log's order, each
item's time against the value at the leaf the tree shows for that item
(`run_plots_tree_leaves`), and the limits hold every value that is not NaN
(`fitLimits_hold_values`). -/
namespace Mjmech.Tplot

/-- The reader as `PlotView` reads it: each record's schema root by record name, the items
`reader_->items` yields for a record, timestamp and data in the log's order, and
`log_start_`. -/
structure Log where
  records : String → Option Element
  items : String → List (ℤ × ReadStream)
  logStart : ℤ

/-- One point of a plot: an entry of each of `timestamps`, `xvals` and `yvals`. -/
abbrev Point := ℤ × Flt .float32 × Flt .float32

/-- `min_x`, `max_x`, `min_y` and `max_y`. -/
structure Limits where
  minX : Flt .float32
  maxX : Flt .float32
  minY : Flt .float32
  maxY : Flt .float32

/-- `PlotView::Plot`, with the fields the view's logic writes: the tokens, the legend, the
points, the limits and the axis. -/
structure Plot where
  xToken : String
  yToken : String
  legend : String
  points : List Point
  limits : Limits
  axis : ℤ

/-- `PlotView`'s state: `plots_`, `current_plot_index_` and `current_axis_`. -/
structure PlotView where
  plots : List Plot
  currentPlotIndex : ℕ
  currentAxis : ℤ

/-- `PlotView` as constructed. -/
def PlotView.init : PlotView := ⟨[], 0, 0⟩

/-- One frame's input: a token dropped on the plot, a choice in the `Axis` combo, a click on
`Remove`, and a row picked in the `Plots` combo. -/
structure Frame where
  drop : Option String
  axis : Option ℤ
  remove : Bool
  pick : Option ℕ

/-- `MakeLegend`. -/
def makeLegend (x y : String) : String :=
  if x ≠ "" ∧ y ≠ "" then y ++ " vs " ++ x else if x = "" then y else "time vs " ++ x

/-- `std::min_element`: a later value replaces the one kept only when it is `<` it. -/
def minElement (first : Flt .float32) (rest : List (Flt .float32)) : Flt .float32 :=
  rest.foldl (fun smallest value => if value < smallest then value else smallest) first

/-- `std::max_element`: a later value replaces the one kept only when the kept one is `<` it. -/
def maxElement (first : Flt .float32) (rest : List (Flt .float32)) : Flt .float32 :=
  rest.foldl (fun largest value => if largest < value then value else largest) first

/-- The limits `AddPlot` stores for a plot of `points`: the least and greatest x and y, as
`min_element` and `max_element` find them, then `max_y = min_y + 1.0f` and
`max_x = max_x + 1.0f` where the greatest is `<=` the least; none for no point, where `AddPlot`
drops the plot. -/
def fitLimits : List Point → Option Limits
  | [] => none
  | (_, x, y) :: points =>
    let minX := minElement x (points.map (·.2.1))
    let maxX := maxElement x (points.map (·.2.1))
    let minY := minElement y (points.map (·.2.2))
    let maxY := maxElement y (points.map (·.2.2))
    some ⟨minX, if maxX ≤ minX then maxX.add (Flt.ofRat 1) else maxX, minY,
      if maxY ≤ minY then minY.add (Flt.ofRat 1) else maxY⟩

/-- One pass of `AddPlot`'s items loop: the item's timestamp, `getter.x(item)` and
`getter.y(item)`, each walked from the record's root. `none`: a walk hits undefined
behaviour. -/
def PlotRetrieve.point (getter : PlotRetrieve) (log : Log) (item : ℤ × ReadStream) :
    Option Point := do
  let root ← getter.root.root
  let x ← getter.x.call log.logStart root item.1 item.2
  let y ← getter.y.call log.logStart root item.1 item.2
  pure (item.1, x, y)

section Frames

variable (log : Log)

/-- `AddPlot`: nothing when the getter is invalid or the record has no item, otherwise a plot on
the current axis, of one point per item, is appended. `none`: `PlotRetrieve`'s constructor reads
a record the reader does not have, or throws, or the items loop walks undefined data. -/
def PlotView.addPlot (view : PlotView) (xToken yToken : String) : Option PlotView :=
  (PlotRetrieve.make log.records xToken yToken).bind fun getter =>
    if getter.valid then
      ((log.items getter.root.record).mapM (getter.point log)).map fun points =>
        match fitLimits points with
        | none => view
        | some limits => { view with plots := view.plots ++
            [⟨xToken, yToken, makeLegend xToken yToken, points, limits, view.currentAxis⟩] }
    else some view

/-- The `Remove` button: erase the selected plot, then step the selection back if it fell off
the end. `none` is the erase of `plots_.begin() + current_plot_index_` past the end. -/
def PlotView.remove (view : PlotView) : Option PlotView :=
  if view.currentPlotIndex < view.plots.length then
    let plots := view.plots.eraseIdx view.currentPlotIndex
    some { view with plots, currentPlotIndex :=
      if view.currentPlotIndex > 0 ∧ view.currentPlotIndex ≥ plots.length then
        view.currentPlotIndex - 1
      else view.currentPlotIndex }
  else none

/-- The `Plots` combo: only rows `0 .. plots_.size() - 1` are offered. -/
def PlotView.pick (view : PlotView) (row : ℕ) : PlotView :=
  if row < view.plots.length then { view with currentPlotIndex := row } else view

/-- `PlotView::Update`, in the order of its widgets: the drop target, `Axis`, `Remove`,
`Plots`. -/
def PlotView.update (view : PlotView) (frame : Frame) : Option PlotView :=
  ((frame.drop.elim (some view) (view.addPlot log "")).bind fun view =>
    let view := frame.axis.elim view fun axis => { view with currentAxis := axis }
    if frame.remove then view.remove else some view).map fun view =>
      frame.pick.elim view view.pick

/-- A run of frames; `none` once a frame hits undefined behaviour. -/
def PlotView.run (view : PlotView) : List Frame → Option PlotView
  | [] => some view
  | frame :: frames => (view.update log frame).bind fun next => next.run frames

end Frames

/-- The selection is in range, or there is no plot and the selection is 0. -/
def SelectionValid (view : PlotView) : Prop :=
  view.currentPlotIndex < view.plots.length ∨ (view.plots = [] ∧ view.currentPlotIndex = 0)

section Lemmas

variable {log : Log} {view next : PlotView}

/-- `AddPlot` keeps the selection and either changes no plot or appends one. -/
theorem addPlot_cases {xToken yToken : String} (added : view.addPlot log xToken yToken = some next) :
    next.currentPlotIndex = view.currentPlotIndex ∧
      (next.plots = view.plots ∨ ∃ plot, next.plots = view.plots ++ [plot]) := by
  obtain ⟨getter, -, built⟩ := Option.bind_eq_some.mp added
  split_ifs at built
  · obtain ⟨points, -, rfl⟩ := Option.map_eq_some'.mp built
    split
    · exact ⟨rfl, .inl rfl⟩
    · exact ⟨rfl, .inr ⟨_, rfl⟩⟩
  · cases built
    exact ⟨rfl, .inl rfl⟩

theorem addPlot_valid (valid : SelectionValid view) {xToken yToken : String}
    (added : view.addPlot log xToken yToken = some next) : SelectionValid next := by
  obtain ⟨index, same | ⟨plot, grown⟩⟩ := addPlot_cases added
  · rwa [SelectionValid, index, same]
  · rcases valid with inside | ⟨empty, zero⟩
    · exact .inl (by simp [index, grown]; omega)
    · exact .inl (by simp [index, grown, empty, zero])

/-- `Remove` goes past the end of `plots_` exactly when there is no plot. -/
theorem remove_past_end_iff_empty (valid : SelectionValid view) :
    view.remove = none ↔ view.plots = [] := by
  unfold PlotView.remove
  rcases valid with inside | ⟨empty, zero⟩
  · simp only [inside, if_true, reduceCtorEq, false_iff]
    intro empty
    simp [empty] at inside
  · simp [empty, zero]

theorem remove_valid (removed : view.remove = some next) : SelectionValid next := by
  unfold PlotView.remove at removed
  split_ifs at removed with inside
  cases removed
  have shorter := List.length_eraseIdx_of_lt inside
  unfold SelectionValid
  simp only [shorter]
  split_ifs with back
  · left; omega
  · by_cases last : view.plots.length = 1
    · exact .inr ⟨List.eq_nil_of_length_eq_zero (by rw [shorter]; omega), by omega⟩
    · left; omega

theorem pick_valid (valid : SelectionValid view) (row : ℕ) : SelectionValid (view.pick row) := by
  unfold PlotView.pick
  split_ifs with inside
  · exact .inl inside
  · exact valid

/-- A frame that completes is a drop that completes, then `Axis`, then a `Remove` click that
completes, then the pick. -/
theorem update_steps {frame : Frame} (ok : view.update log frame = some next) :
    ∃ dropped removed, frame.drop.elim (some view) (view.addPlot log "") = some dropped ∧
      (if frame.remove then (frame.axis.elim dropped fun axis => { dropped with currentAxis := axis }).remove
        else some (frame.axis.elim dropped fun axis => { dropped with currentAxis := axis })) =
          some removed ∧
      next = frame.pick.elim removed removed.pick := by
  obtain ⟨removed, steps, rfl⟩ := Option.map_eq_some'.mp ok
  obtain ⟨dropped, first, second⟩ := Option.bind_eq_some.mp steps
  exact ⟨dropped, removed, first, second, rfl⟩

/-- A frame that completes leaves the selection in range, or at 0 with no plot. -/
theorem frame_keeps_selection (valid : SelectionValid view) (frame : Frame)
    (ok : view.update log frame = some next) : SelectionValid next := by
  obtain ⟨dropped, removed, first, second, rfl⟩ := update_steps ok
  have afterDrop : SelectionValid dropped := by
    cases h : frame.drop <;> rw [h] at first
    · cases first; exact valid
    · exact addPlot_valid valid first
  have afterAxis : SelectionValid (frame.axis.elim dropped fun axis =>
      { dropped with currentAxis := axis }) := by
    cases frame.axis <;> exact afterDrop
  have afterRemove : SelectionValid removed := by
    split_ifs at second
    · exact remove_valid second
    · cases second; exact afterAxis
  cases frame.pick
  · exact afterRemove
  · exact pick_valid afterRemove _

/-- Along every run of frames that completes, the selection stays in range or at 0 with no
plot. -/
theorem run_keeps_selection (valid : SelectionValid view) :
    ∀ frames final, view.run log frames = some final → SelectionValid final := by
  intro frames
  induction frames generalizing view with
  | nil => intro final done; cases done; exact valid
  | cons frame frames ih =>
    intro final done
    obtain ⟨middle, first, rest⟩ := Option.bind_eq_some.mp done
    exact ih (frame_keeps_selection valid frame first) final rest

/-- A log of one record, `imu`, an object of two `float`s, with two items a second apart. -/
def benchLog : Log where
  records name := if name = "imu" then
    some (.object "imu" (.cons "x" (.scalar "x" .kFloat32) (.cons "y" (.scalar "y" .kFloat32) .nil)))
    else none
  items name := if name = "imu" then [(0, [1, 2]), (1000000, [3, 4])] else []
  logStart := 0

/-- Frames that drop both fields, pick the second plot, remove it and drop an empty token. -/
def benchFrames : List Frame :=
  [⟨some "imu.x", none, false, none⟩, ⟨some "imu.y", some 1, false, some 1⟩,
    ⟨none, none, true, none⟩, ⟨some "", none, false, none⟩]

theorem run_keeps_selection_on_bench : ∃ final,
    PlotView.init.run benchLog benchFrames = some final ∧ SelectionValid final :=
  ⟨_, rfl, @run_keeps_selection benchLog PlotView.init (.inr ⟨rfl, rfl⟩) benchFrames _ rfl⟩

/-- A plot of time against a token is legended by the token. -/
theorem makeLegend_time (y : String) : makeLegend "" y = y := by
  simp [makeLegend]

/-- Every plot is one a drop made, `AddPlot("", token)`: its x token is empty, its legend is
its y token, and its points are the items loop's over the record of a valid getter for that
token, with the limits fitted to them. -/
def PlotsFromDrops (log : Log) (view : PlotView) : Prop :=
  ∀ plot ∈ view.plots, plot.xToken = "" ∧ plot.legend = plot.yToken ∧
    ∃ getter, PlotRetrieve.make log.records "" plot.yToken = some getter ∧ getter.valid = true ∧
      (log.items getter.root.record).mapM (getter.point log) = some plot.points ∧
      fitLimits plot.points = some plot.limits

theorem addPlot_fromDrops (kept : PlotsFromDrops log view) {token : String}
    (added : view.addPlot log "" token = some next) : PlotsFromDrops log next := by
  obtain ⟨getter, made, built⟩ := Option.bind_eq_some.mp added
  split_ifs at built with valid
  · obtain ⟨points, looped, rfl⟩ := Option.map_eq_some'.mp built
    split
    · exact kept
    · next limits fitted =>
      intro plot member
      rcases List.mem_append.mp member with old | new
      · exact kept plot old
      · obtain rfl := List.mem_singleton.mp new
        exact ⟨rfl, makeLegend_time token, getter, made, valid, looped, fitted⟩
  · cases built
    exact kept

theorem remove_plots (removed : view.remove = some next) :
    next.plots = view.plots.eraseIdx view.currentPlotIndex := by
  unfold PlotView.remove at removed
  split_ifs at removed
  cases removed
  rfl

theorem pick_plots (row : ℕ) : (view.pick row).plots = view.plots := by
  unfold PlotView.pick
  split_ifs <;> rfl

/-- A frame that completes only drops plots or adds the one its drop makes. -/
theorem frame_keeps_plots (kept : PlotsFromDrops log view) (frame : Frame)
    (ok : view.update log frame = some next) : PlotsFromDrops log next := by
  obtain ⟨dropped, removed, first, second, rfl⟩ := update_steps ok
  have afterDrop : PlotsFromDrops log dropped := by
    cases h : frame.drop <;> rw [h] at first
    · cases first; exact kept
    · exact addPlot_fromDrops kept first
  have afterAxis : PlotsFromDrops log (frame.axis.elim dropped fun axis =>
      { dropped with currentAxis := axis }) := by
    cases frame.axis <;> exact afterDrop
  have afterRemove : PlotsFromDrops log removed := by
    split_ifs at second
    · intro plot member
      rw [remove_plots second] at member
      exact afterAxis plot (List.mem_of_mem_eraseIdx member)
    · cases second; exact afterAxis
  cases frame.pick
  · exact afterRemove
  · intro plot member
    rw [Option.elim_some, pick_plots] at member
    exact afterRemove plot member

/-- Along every run of frames that completes, from a view whose plots came from drops, every
plot is still one a drop made: `Remove` only erases, `Axis` and `Plots` change no plot, and
`AddPlot` skips a getter that is invalid or finds no items. -/
theorem run_keeps_plots_from_drops (kept : PlotsFromDrops log view) :
    ∀ frames final, view.run log frames = some final → PlotsFromDrops log final := by
  intro frames
  induction frames generalizing view with
  | nil => intro final done; cases done; exact kept
  | cons frame frames ih =>
    intro final done
    obtain ⟨middle, first, rest⟩ := Option.bind_eq_some.mp done
    exact ih (frame_keeps_plots kept frame first) final rest

end Lemmas

section Points

/-- The items loop yields one point per item, in order, or nothing. -/
theorem mapM_forall₂ {α β : Type} {f : α → Option β} :
    ∀ {items : List α} {points : List β}, items.mapM f = some points →
      List.Forall₂ (fun item point => f item = some point) items points
  | [], points, looped => by
    cases looped
    exact .nil
  | item :: items, points, looped => by
    simp only [List.mapM_cons, Option.bind_eq_bind, Option.pure_def, Option.bind_eq_some,
      Option.some.injEq] at looped
    obtain ⟨point, first, rest, more, rfl⟩ := looped
    exact .cons first (mapM_forall₂ more)

/-- The tree of `root` offers `token` for an item's `data` at `row`, a leaf with a value below
the root. -/
def Element.Offers (root : Element) (data : ReadStream) (token : String) (row : Row) : Prop :=
  ∃ rows rest, root.visit .top data = some (rows, rest) ∧ row ∈ rows ∧ row.leaf.Valued ∧
    row.token = token ∧ token ≠ root.name

/-- A point of the items loop of a getter on `root` whose x is the time: the item's timestamp,
its time since the log's start as a `float`, and the getter's `y` for the item. -/
theorem point_eq {log : Log} {getter : PlotRetrieve} {root : Element}
    (rooted : getter.root.root = some root) (timeX : getter.x.isTimestamp = true) {timestamp : ℤ}
    {data : ReadStream} {point : Point} (pointed : getter.point log (timestamp, data) = some point) :
    ∃ y, point = (timestamp, Flt.narrow (convertDurationToSeconds ((timestamp - log.logStart : ℤ) : ℚ)), y) ∧
      getter.y.call log.logStart root timestamp data = some y := by
  simp only [PlotRetrieve.point, rooted, ValueRetrieve.call, timeX, if_true, Option.bind_eq_bind,
    Option.some_bind, Option.pure_def, Option.bind_eq_some, Option.some.injEq] at pointed
  obtain ⟨y, called, rfl⟩ := pointed
  exact ⟨y, rfl, called⟩

/-- The getter `AddPlot("", token)` builds, for an item whose tree offers `token`, returns the
`float` value at the leaf the tree shows. -/
theorem call_of_offers {records : String → Option Element} {root : Element} {token : String}
    {getter : PlotRetrieve} {data : ReadStream} {row : Row} (named : root.WellNamed)
    (found : records root.name = some root) (made : PlotRetrieve.make records "" token = some getter)
    (offered : root.Offers data token row) (logStart timestamp : ℤ) :
    getter.y.call logStart root timestamp data = row.leaf.leafFloat logStart row.data := by
  obtain ⟨rows, rest, visited, member, valued, rfl, below⟩ := offered
  obtain ⟨getter', made', -, -, -, -, leafY, walked⟩ :=
    drag_token_walks_leaf named found visited member valued below
  obtain rfl : getter = getter' := Option.some.inj (made.symm.trans made')
  rw [ValueRetrieve.call, if_neg (by simp [leafY])]
  exact walked _ _

end Points

/-- What a plot shows of the tree: for every well-named record found under its own name whose
tree offers the plot's token for some item's data, the plot's points are that record's items,
one to one and in the log's order, each the item's timestamp, the item's time since the log's
start as a `float`, and, in every item whose tree offers the token, the `float` value at the
leaf the tree shows. -/
def ShowsTree (log : Log) (plot : Plot) : Prop :=
  ∀ root : Element, root.WellNamed → log.records root.name = some root →
    ∀ data row, root.Offers data plot.yToken row →
      List.Forall₂ (fun (item : ℤ × ReadStream) (point : Point) => point.1 = item.1 ∧
          point.2.1 = Flt.narrow (convertDurationToSeconds ((item.1 - log.logStart : ℤ) : ℚ)) ∧
          ∀ row', root.Offers item.2 plot.yToken row' →
            row'.leaf.leafFloat log.logStart row'.data = some point.2.2)
        (log.items root.name) plot.points

section Lemmas

variable {log : Log} {view : PlotView}

/-- Along every run of frames that completes, from a view whose plots came from drops, every
plot shows the tree: it plots the record the tree offers its token in, item by item and in the
log's order, each item's time against the value at the leaf the tree shows for that item. -/
theorem run_plots_tree_leaves (kept : PlotsFromDrops log view) (frames : List Frame)
    {final : PlotView} (done : view.run log frames = some final) :
    ∀ plot ∈ final.plots, ShowsTree log plot := by
  intro plot member root named found data row offered
  obtain ⟨-, -, getter, made, -, looped, -⟩ :=
    run_keeps_plots_from_drops kept frames final done plot member
  obtain ⟨rows, rest, visited, rowMember, valued, spelled, below⟩ := offered
  obtain ⟨getter', made', -, record, rooted, timeX, -⟩ :=
    drag_token_walks_leaf named found visited rowMember valued (spelled ▸ below)
  rw [spelled] at made'
  obtain rfl : getter = getter' := Option.some.inj (made.symm.trans made')
  rw [record] at looped
  refine (mapM_forall₂ looped).imp fun item point pointed => ?_
  obtain ⟨stamp, itemData⟩ := item
  obtain ⟨y, rfl, called⟩ := point_eq rooted timeX pointed
  exact ⟨rfl, rfl, fun row' offered' =>
    (call_of_offers named found made offered' log.logStart stamp).symm.trans called⟩

theorem run_plots_tree_leaves_on_bench : ∃ final,
    PlotView.init.run benchLog benchFrames = some final ∧ ∀ plot ∈ final.plots, ShowsTree benchLog plot :=
  ⟨_, rfl, @run_plots_tree_leaves benchLog PlotView.init (fun _ none => nomatch none) benchFrames _ rfl⟩

/-- The view's first frame: with no plot, a click on `Remove` erases `plots_.begin() + 0` of an
empty `plots_`, whatever the log. -/
theorem remove_on_empty_view :
    PlotView.init.currentPlotIndex ≥ PlotView.init.plots.length ∧
    PlotView.init.update log ⟨none, none, true, none⟩ = none := by
  simp [PlotView.init, PlotView.update, PlotView.remove]

end Lemmas

section Limits

variable {first : Flt .float32} {rest : List (Flt .float32)}

theorem minElement_cons (value : Flt .float32) :
    minElement first (value :: rest) = minElement (if value < first then value else first) rest :=
  rfl

theorem maxElement_cons (value : Flt .float32) :
    maxElement first (value :: rest) = maxElement (if first < value then value else first) rest :=
  rfl

/-- `std::min_element` from a value that is not NaN finds one no greater than every value that is
not NaN. -/
theorem minElement_spec : ∀ {first : Flt .float32} {rest : List (Flt .float32)}, first.val ≠ .nan →
    (minElement first rest).val ≠ .nan ∧ minElement first rest ≤ first ∧
      ∀ v ∈ rest, v.val ≠ .nan → minElement first rest ≤ v
  | first, [], number => ⟨number, Val.le_refl_of_ne number, by simp⟩
  | first, value :: rest, number => by
    have kept : (if value < first then value else first) ≤ first ∧
        (value.val ≠ .nan → (if value < first then value else first) ≤ value) ∧
        (if value < first then value else first).val ≠ .nan := by
      split_ifs with less
      · have valueNumber := (Val.ne_nan_of_le (Val.le_of_lt less)).1
        exact ⟨Val.le_of_lt less, fun _ => Val.le_refl_of_ne valueNumber, valueNumber⟩
      · exact ⟨Val.le_refl_of_ne number, fun other => Val.le_of_not_lt other number less, number⟩
    obtain ⟨below, belowValue, keptNumber⟩ := kept
    obtain ⟨found, least, each⟩ := @minElement_spec _ rest keptNumber
    rw [minElement_cons]
    refine ⟨found, Val.le_trans least below, fun v member other => ?_⟩
    rcases List.mem_cons.mp member with rfl | later
    · exact Val.le_trans least (belowValue other)
    · exact each v later other

/-- `std::max_element` from a value that is not NaN finds one no less than every value that is
not NaN. -/
theorem maxElement_spec : ∀ {first : Flt .float32} {rest : List (Flt .float32)}, first.val ≠ .nan →
    (maxElement first rest).val ≠ .nan ∧ first ≤ maxElement first rest ∧
      ∀ v ∈ rest, v.val ≠ .nan → v ≤ maxElement first rest
  | first, [], number => ⟨number, Val.le_refl_of_ne number, by simp⟩
  | first, value :: rest, number => by
    have kept : first ≤ (if first < value then value else first) ∧
        (value.val ≠ .nan → value ≤ (if first < value then value else first)) ∧
        (if first < value then value else first).val ≠ .nan := by
      split_ifs with less
      · have valueNumber := (Val.ne_nan_of_le (Val.le_of_lt less)).2
        exact ⟨Val.le_of_lt less, fun _ => Val.le_refl_of_ne valueNumber, valueNumber⟩
      · exact ⟨Val.le_refl_of_ne number, fun other => Val.le_of_not_lt number other less, number⟩
    obtain ⟨above, aboveValue, keptNumber⟩ := kept
    obtain ⟨found, greatest, each⟩ := @maxElement_spec _ rest keptNumber
    rw [maxElement_cons]
    refine ⟨found, Val.le_trans above greatest, fun v member other => ?_⟩
    rcases List.mem_cons.mp member with rfl | later
    · exact Val.le_trans (aboveValue other) greatest
    · exact each v later other

/-- From NaN, `std::min_element` keeps NaN: no value is `<` it. -/
theorem minElement_of_nan : ∀ {first : Flt .float32} {rest : List (Flt .float32)},
    first.val = .nan → (minElement first rest).val = .nan
  | _, [], isNan => isNan
  | first, value :: rest, isNan => by
    have kept : ¬ value < first := by
      show ¬ value.val < first.val
      rw [isNan]
      exact Val.not_lt_nan
    rw [minElement_cons, if_neg kept]
    exact minElement_of_nan isNan

/-- From NaN, `std::max_element` keeps NaN: it is `<` no value. -/
theorem maxElement_of_nan : ∀ {first : Flt .float32} {rest : List (Flt .float32)},
    first.val = .nan → (maxElement first rest).val = .nan
  | _, [], isNan => isNan
  | first, value :: rest, isNan => by
    have kept : ¬ first < value := by
      show ¬ first.val < value.val
      rw [isNan]
      exact Val.not_nan_lt
    rw [maxElement_cons, if_neg kept]
    exact maxElement_of_nan isNan

theorem ofRat_one : (Flt.ofRat 1 : Flt .float32).val = .fin 1 :=
  Binary.ofRat_of_inFormat ⟨by exact_mod_cast @Binary.round_intCast Binary.float32 1 (by decide) (by decide),
    by norm_num [Binary.emax, Binary.float32]⟩

/-- `+ 1.0f` never moves a value that is not NaN down. -/
theorem le_add_one {m : Flt .float32} (number : m.val ≠ .nan) : m ≤ m.add (Flt.ofRat 1) := by
  show m.val ≤ Binary.float32.add m.val (Flt.ofRat 1).val
  rw [ofRat_one]
  exact Binary.le_add_fin number m.inFormat zero_le_one

/-- `+ 1.0f` moves a finite value `a` up while `|a + 1|` is below 2^24, where `float`'s grid
is finer than 1. -/
theorem lt_add_one {m : Flt .float32} {a : ℚ} (finite : m.val = .fin a) (small : |a + 1| < 2 ^ 24) :
    m < m.add (Flt.ofRat 1) := by
  show m.val < Binary.float32.add m.val (Flt.ofRat 1).val
  have bound : |a + 1| ≤ 2 ^ (24 : ℤ) := small.le.trans_eq (by norm_num)
  have near := @Binary.abs_round_sub_le_half Binary.float32 (a + 1) small (by decide)
  rw [ofRat_one, finite]
  show Val.fin a < Binary.float32.ofRat (a + 1)
  rw [@Binary.ofRat_of_le Binary.float32 (a + 1) 24 bound (by norm_num [Binary.float32])
    (by norm_num [Binary.emax, Binary.float32]), Val.fin_lt_fin]
  linarith [(abs_le.mp near).1]

/-- What `AddPlot`'s limits for one axis promise about its values. When the first value is NaN,
both limits are NaN: `std::min_element` and `std::max_element` compare with `<`, which NaN
fails. Otherwise the limits hold every value that is not NaN, in the IEEE order, and are not an
empty range when the least value `a` has `|a + 1|` below 2^24; from 2^24 on, `+ 1.0f` rounds
back to the value itself. -/
def RangeHolds (least greatest : Flt .float32) : List (Flt .float32) → Prop
  | [] => True
  | first :: rest =>
    (first.val = .nan → least.val = .nan ∧ greatest.val = .nan) ∧
    (first.val ≠ .nan → (∀ v ∈ first :: rest, v.val ≠ .nan → least ≤ v ∧ v ≤ greatest) ∧
      ∀ a, least.val = .fin a → |a + 1| < 2 ^ 24 → least < greatest)

/-- One axis of `fitLimits`: the least value, and the greatest widened by `+ 1.0f` (of either
end) when it is `<=` the least. -/
theorem range_holds {greatest : Flt .float32}
    (widened : maxElement first rest ≤ minElement first rest →
      greatest = (maxElement first rest).add (Flt.ofRat 1) ∨
        greatest = (minElement first rest).add (Flt.ofRat 1))
    (kept : ¬ maxElement first rest ≤ minElement first rest → greatest = maxElement first rest) :
    RangeHolds (minElement first rest) greatest (first :: rest) := by
  refine ⟨fun isNan => ?_, fun number => ?_⟩
  · have notLe : ¬ maxElement first rest ≤ minElement first rest := by
      show ¬ (maxElement first rest).val ≤ _
      rw [maxElement_of_nan isNan]
      exact Val.not_nan_le
    rw [kept notLe]
    exact ⟨minElement_of_nan isNan, maxElement_of_nan isNan⟩
  obtain ⟨minNumber, minLe, minEach⟩ := @minElement_spec _ rest number
  obtain ⟨maxNumber, leMax, maxEach⟩ := @maxElement_spec _ rest number
  have grows : maxElement first rest ≤ greatest ∧ ∀ a, (minElement first rest).val = .fin a →
      |a + 1| < 2 ^ 24 → minElement first rest < greatest := by
    by_cases degenerate : maxElement first rest ≤ minElement first rest
    · have same : maxElement first rest = minElement first rest :=
        Flt.ext (Val.eq_of_le_of_le degenerate (Val.le_trans minLe leMax))
      have bumped : greatest = (minElement first rest).add (Flt.ofRat 1) := by
        rcases widened degenerate with bumped | bumped
        · rwa [same] at bumped
        · exact bumped
      rw [bumped, same]
      exact ⟨le_add_one minNumber, fun a finite small => lt_add_one finite small⟩
    · rw [kept degenerate]
      exact ⟨Val.le_refl_of_ne maxNumber, fun _ _ _ => Val.lt_of_not_le maxNumber minNumber degenerate⟩
  refine ⟨fun v member other => ?_, grows.2⟩
  rcases List.mem_cons.mp member with rfl | later
  · exact ⟨minLe, Val.le_trans leMax grows.1⟩
  · exact ⟨minEach v later other, Val.le_trans (maxEach v later other) grows.1⟩

/-- For every plot's points, the limits `AddPlot` fits hold every x and every y that is not NaN,
in the IEEE order, when the first point's value is not NaN, and are both NaN when it is; they
make a range that is not empty when the least value `a` has `|a + 1|` below 2^24. -/
theorem fitLimits_hold_values (point : Point) (points : List Point) :
    ∃ limits, fitLimits (point :: points) = some limits ∧
      RangeHolds limits.minX limits.maxX ((point :: points).map (·.2.1)) ∧
      RangeHolds limits.minY limits.maxY ((point :: points).map (·.2.2)) := by
  obtain ⟨_, x, y⟩ := point
  refine ⟨_, rfl, range_holds (fun _ => .inl ?_) (fun _ => ?_), range_holds (fun _ => .inr ?_)
    (fun _ => ?_)⟩ <;> simp only [*, ↓reduceIte]

end Limits


end Mjmech.Tplot
