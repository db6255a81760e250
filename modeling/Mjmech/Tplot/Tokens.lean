import Mjmech.Tplot.Value

/-! The tokens of `tplot2.cc`'s drag sources, as the names of leaves. `TreeView::VisitElement`
offers each leaf of an item as a drag source whose payload is the leaf's token, and `PlotView`
keeps nothing but that token to find the leaf again. For a record whose schema
`Element.WellNamed` takes, the leaves with a value that one walk offers carry pairwise distinct
tokens, whatever the UI has expanded (`drag_tokens_apart`): two leaves' paths first part at a
field name or an array index, and the tokenizer reads that component back. A `null`
alternative has no value; its row carries the null's own name, which nothing keeps apart from
its siblings'. -/
namespace Mjmech.Tplot

/-- Two drag sources with a value to plot carry different tokens. -/
def Row.Apart (row other : Row) : Prop :=
  row.leaf.Valued → other.leaf.Valued → row.token ≠ other.token

/-- Two paths of components without a `.` that spell the same text start with the same
component: the tokenizer reads it back from either. -/
theorem dotted_head_eq {component other : String} {path rest : List String}
    (dotFree : ∀ c ∈ component :: path, '.' ∉ c.toList)
    (otherFree : ∀ c ∈ other :: rest, '.' ∉ c.toList)
    (same : dotted (component :: path) = dotted (other :: rest)) : component = other := by
  rw [dotted_cons, dotted_cons, List.cons.injEq] at same
  have read := congrArg (fun text => (Tokenizer.mk text).next.1) same.2
  simpa only [Tokenizer.next_path dotFree, Tokenizer.next_path otherFree, List.headD_cons]
    using read

/-- Distinct array indices are distinct token components. -/
theorem toString_ne_of_ne {index other : ℕ} (differs : index ≠ other) :
    toString index ≠ toString other := fun same =>
  differs (by simpa only [stoull_toString, Option.some.injEq] using congrArg stoull same)

/-- The rows below one component of a token, followed by rows below other components: the
whole keeps apart if each part does. -/
theorem pairwise_apart_append {rows more : List Row} (front : List Char) {key : String}
    (keyFree : '.' ∉ key.toList) (rowsApart : rows.Pairwise Row.Apart)
    (moreApart : more.Pairwise Row.Apart)
    (under : ∀ row ∈ rows, row.leaf.Valued → ∃ path, (∀ c ∈ path, '.' ∉ c.toList ∧ c ≠ "") ∧
      row.token.toList = front ++ dotted (key :: path))
    (after : ∀ row ∈ more, row.leaf.Valued → ∃ other, other ≠ key ∧ '.' ∉ other.toList ∧
      ∃ path, (∀ c ∈ path, '.' ∉ c.toList ∧ c ≠ "") ∧
        row.token.toList = front ++ dotted (other :: path)) :
    (rows ++ more).Pairwise Row.Apart := by
  refine List.pairwise_append.mpr ⟨rowsApart, moreApart, fun row member later laterMember valued
    laterValued same => ?_⟩
  obtain ⟨path, components, token⟩ := under row member valued
  obtain ⟨other, differs, otherFree, rest, restComponents, laterToken⟩ :=
    after later laterMember laterValued
  rw [same, laterToken] at token
  exact differs (dotted_head_eq (List.forall_mem_cons.mpr ⟨otherFree, fun c m =>
    (restComponents c m).1⟩) (List.forall_mem_cons.mpr ⟨keyFree, fun c m => (components c m).1⟩)
    (List.append_cancel_left token))

/-- The items of an array from `index` on keep apart, each leaf with a value below an index no
smaller, if each item's rows keep apart below the item's own index. -/
theorem doArray_apart {visitItem : ℕ → ReadStream → Option (List Row × ReadStream)}
    {front : List Char}
    (each : ∀ index s rows rest, visitItem index s = some (rows, rest) →
      rows.Pairwise Row.Apart ∧ ∀ row ∈ rows, row.leaf.Valued → ∃ path,
        (∀ c ∈ path, '.' ∉ c.toList ∧ c ≠ "") ∧
          row.token.toList = front ++ dotted (toString index :: path)) :
    ∀ {count index : ℕ} {s : ReadStream} {rows : List Row} {rest : ReadStream},
    doArray visitItem index count s = some (rows, rest) →
      rows.Pairwise Row.Apart ∧ ∀ row ∈ rows, row.leaf.Valued → ∃ later path, index ≤ later ∧
        (∀ c ∈ path, '.' ∉ c.toList ∧ c ≠ "") ∧
          row.token.toList = front ++ dotted (toString later :: path)
  | 0, _, _, _, _, walked => by
    simp only [doArray, Option.some.injEq, Prod.mk.injEq] at walked
    obtain ⟨rfl, -⟩ := walked
    exact ⟨.nil, fun _ member => absurd member (List.not_mem_nil _)⟩
  | count + 1, index, s, _, _, walked => by
    simp only [doArray, Option.bind_eq_bind, Option.bind_eq_some, Option.pure_def,
      Option.some.injEq, Prod.mk.injEq] at walked
    obtain ⟨⟨rows, middle⟩, item, ⟨more, _⟩, others, rfl, rfl⟩ := walked
    obtain ⟨rowsApart, under⟩ := each index s rows middle item
    obtain ⟨moreApart, after⟩ := doArray_apart each others
    refine ⟨pairwise_apart_append front (toString_component index).1 rowsApart moreApart under
      fun row member valued => ?_, fun row member valued => ?_⟩
    · obtain ⟨later, path, above, components, token⟩ := after row member valued
      exact ⟨_, toString_ne_of_ne (by omega), (toString_component later).1, path, components,
        token⟩
    · rcases List.mem_append.mp member with here | there
      · obtain ⟨path, components, token⟩ := under row here valued
        exact ⟨index, path, le_rfl, components, token⟩
      · obtain ⟨later, path, above, components, token⟩ := after row there valued
        exact ⟨later, path, by omega, components, token⟩

/-- A leaf with a value in an array's item sits below the item's index. -/
theorem Element.WellNamed.below_item {child : Element} (named : child.WellNamed)
    {parent : Parent} {array : Element} {index : ℕ} {s rest : ReadStream} {rows : List Row}
    {row : Row} (visited : child.visit (.item parent array index) s = some (rows, rest))
    (member : row ∈ rows) (valued : row.leaf.Valued) :
    ∃ path, (∀ c ∈ path, '.' ∉ c.toList ∧ c ≠ "") ∧
      row.token.toList = (parent.renderToken array).toList ++ dotted (toString index :: path) := by
  obtain ⟨path, components, token, -⟩ := named.retrieves visited member valued
  exact ⟨path, components, by rw [token, Parent.renderToken_item]⟩

mutual

/-- The leaves with a value that the walk over a well-named element offers carry distinct
tokens. -/
theorem Element.WellNamed.tokens_apart : ∀ {element : Element}, element.WellNamed →
    ∀ {parent : Parent} {s rest : ReadStream} {rows : List Row},
    element.visit parent s = some (rows, rest) → rows.Pairwise Row.Apart
  | _, .scalar _, _, _, _, _, walked
  | _, .enum _, _, _, _, _, walked => by
    simp only [Element.visit, Option.bind_eq_bind, Option.bind_eq_some, Option.pure_def,
      Option.some.injEq, Prod.mk.injEq] at walked
    obtain ⟨_, _, rfl, rfl⟩ := walked
    exact List.pairwise_singleton _ _
  | _, @Element.WellNamed.object name fields _ fieldsNamed, parent, s, _, _, walked => by
    simp only [Element.visit, Option.bind_eq_bind, Option.bind_eq_some, Option.pure_def,
      Option.some.injEq, Prod.mk.injEq] at walked
    obtain ⟨⟨_, _⟩, visited, rfl, rfl⟩ := walked
    have own : ∀ row ∈ fields.leafRows ⟨parent.renderToken (.object name fields),
        .object name fields, s⟩, ¬row.leaf.Valued := by
      cases fieldsNamed <;> simp [Fields.leafRows, Element.Valued]
    exact List.pairwise_append.mpr ⟨List.pairwise_of_forall_mem_list fun row member _ _ valued =>
      absurd valued (own row member), fieldsNamed.tokens_apart visited,
      fun row member _ _ valued => absurd valued (own row member)⟩
  | _, .array _ childNamed, _, _, _, _, walked => by
    simp only [Element.visit, Option.bind_eq_bind, Option.bind_eq_some] at walked
    obtain ⟨_, -, walked⟩ := walked
    exact (doArray_apart (fun _ _ _ _ item => ⟨childNamed.tokens_apart item,
      fun _ member valued => childNamed.below_item item member valued⟩) walked).1
  | _, .fixedArray _ childNamed, _, _, _, _, walked =>
    (doArray_apart (fun _ _ _ _ item => ⟨childNamed.tokens_apart item,
      fun _ member valued => childNamed.below_item item member valued⟩) walked).1
  | _, .optional _ _ alternativeNamed, _, _, _, _, walked => by
    simp only [Element.visit, Option.bind_eq_bind, Option.bind_eq_some] at walked
    obtain ⟨⟨index, _⟩, -, walked⟩ := walked
    rcases index with _ | _ | index
    · simp only [Elements.visitAt, Element.visit, Option.bind_eq_bind, Option.bind_eq_some,
        Option.pure_def, Option.some.injEq, Prod.mk.injEq] at walked
      obtain ⟨_, _, rfl, rfl⟩ := walked
      exact List.pairwise_singleton _ _
    · exact alternativeNamed.tokens_apart walked
    · simp [Elements.visitAt] at walked

/-- The leaves with a value that the walk over a well-named object's fields offers carry
distinct tokens. -/
theorem Fields.WellNamed.tokens_apart : ∀ {fields : Fields}, fields.WellNamed →
    ∀ {parent : Parent} {object : Element} {s rest : ReadStream} {rows : List Row},
    fields.visit (.field parent object) s = some (rows, rest) → rows.Pairwise Row.Apart
  | _, .nil, _, _, _, _, _, walked => by
    simp only [Fields.visit, Option.some.injEq, Prod.mk.injEq] at walked
    obtain ⟨rfl, -⟩ := walked
    exact .nil
  | _, .cons _ fresh sameName elementNamed restNamed, parent, object, _, _, _, walked => by
    simp only [Fields.visit, Option.bind_eq_bind, Option.bind_eq_some, Option.pure_def,
      Option.some.injEq, Prod.mk.injEq] at walked
    obtain ⟨⟨_, _⟩, first, ⟨_, _⟩, more, rfl, rfl⟩ := walked
    refine pairwise_apart_append (parent.renderToken object).toList
      (sameName ▸ elementNamed.dotFree) (elementNamed.tokens_apart first)
      (restNamed.tokens_apart more) (fun row member valued => ?_) fun row member valued => ?_
    · obtain ⟨path, components, token, -⟩ := elementNamed.retrieves first member valued
      exact ⟨path, components, by rw [token, Parent.renderToken_field, sameName]⟩
    · obtain ⟨name, named, path, dotFree, -, components, token, -⟩ :=
        restNamed.retrieves 0 more member valued
      exact ⟨name, fun same => fresh (same ▸ named), dotFree, path, components, token⟩

end

/-- Whatever the UI has expanded, the drag sources with a value that the tree offers for one
item of a well-named record carry distinct tokens: a token the plot keeps names one leaf of the
item. -/
theorem drag_tokens_apart {root : Element} (named : root.WellNamed) (expanded : List ℕ → Bool)
    {s rest : ReadStream} {rows : List Row}
    (visited : root.visitElement expanded [] .top s = some (rows, rest)) :
    rows.Pairwise Row.Apart := by
  obtain ⟨all, whole, sub⟩ := root.visitElement_sublist expanded [] .top visited
  exact (named.tokens_apart whole).sublist sub

/-- Every node of the plot record expanded, its drag sources with a value carry distinct
tokens. -/
theorem drag_tokens_apart_on_bench : ∃ rows,
    plotSchema.visitElement (fun _ => true) [] .top (plotValue.write ++ [42]) = some (rows, [42]) ∧
      rows.Pairwise Row.Apart := by
  have skips := plotSchema.visitElement_skips (fun _ => true) [] .top (plotValue.write ++ [42])
  rw [plotSchema.ignore_encoding (plotSchema.encodes_write plotValue_typed) [42]] at skips
  obtain ⟨⟨rows, _⟩, walked, rfl⟩ := Option.map_eq_some'.mp skips
  exact ⟨rows, walked, drag_tokens_apart plotSchema_wellNamed _ walked⟩

end Mjmech.Tplot
