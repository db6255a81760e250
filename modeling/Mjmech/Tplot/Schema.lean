import Mathlib.Data.Rat.Defs
import Mathlib.Data.List.Basic

/-! A record's schema and the tree view's walk over an item of it, in `tplot2.cc`. The schema
is mjlib's `BinarySchemaParser::Element`, kept to what the plotter reads: the name, the `FT`
type, an object's fields, the item type and `array_size` of an array, a map's value type, a
union's alternatives. An item's data is the sequence of primitive reads a `BufferReadStream`
over it answers, one entry for each scalar, array or map size, map key, union index and enum
code; `Element::Ignore` and `maybe_fixed_size` are counted in those entries. `VisitElement`
(`Element.visitElement`) takes the open state of each node from the UI; a collapsed node is
skipped with `Ignore`. Whatever the UI opens, the walk leaves the data where `Ignore` does
(`visitElement_skips`). With every node open it is `Element.visit`, which offers every leaf as
a drag source (`visitElement_expanded`). -/
namespace Mjmech.Tplot

/-- The leaf types of a schema, as `FT` names them. -/
inductive Scalar
  | kFinal | kNull | kBoolean | kFixedInt | kFixedUInt | kVarint | kVaruint | kFloat32 | kFloat64
  | kBytes | kString | kTimestamp | kDuration
  deriving DecidableEq, Repr

mutual

/-- An `Element` of a schema, by its `FT`: a scalar, an enum (read through its unsigned code),
an object and its fields, an array or a fixed array of `array_size` items of its child type, a
map from string keys to values of its child type, or a union of its alternatives. -/
inductive Element
  | scalar (name : String) (type : Scalar)
  | enum (name : String)
  | object (name : String) (fields : Fields)
  | array (name : String) (child : Element)
  | fixedArray (name : String) (arraySize : ℕ) (child : Element)
  | map (name : String) (child : Element)
  | union (name : String) (children : Elements)

/-- An object's `fields`, in order: each a name and its element. -/
inductive Fields
  | nil
  | cons (name : String) (element : Element) (rest : Fields)

/-- A union's `children`, in order. -/
inductive Elements
  | nil
  | cons (element : Element) (rest : Elements)

end

/-- `Element::name`. -/
def Element.name : Element → String
  | .scalar name _ | .enum name | .object name _ | .array name _ | .fixedArray name _ _
  | .map name _ | .union name _ => name

/-- The names of an object's fields. -/
def Fields.names : Fields → List String
  | .nil => []
  | .cons name _ rest => name :: rest.names

/-- An item's data as a `BufferReadStream` reads it: one entry per primitive read. -/
abbrev ReadStream := List ℚ

/-- One primitive read; `none` past the end of the data. -/
def ReadStream.read : ReadStream → Option (ℚ × ReadStream)
  | [] => none
  | value :: rest => some (value, rest)

/-- `ReadArraySize` and `ReadUnionIndex`: a read taken as a count. -/
def ReadStream.readCount (s : ReadStream) : Option (ℕ × ReadStream) :=
  s.read.map fun (value, rest) => (value.floor.toNat, rest)

/-- Skip a scalar: nothing for `kFinal` and `kNull`, one entry for every other type. -/
def Scalar.skip : Scalar → ReadStream → Option ReadStream
  | .kFinal, s | .kNull, s => some s
  | _, s => s.read.map Prod.snd

/-- A read that may fail, `count` times over. -/
def repeatRead (read : ReadStream → Option ReadStream) : ℕ → ReadStream → Option ReadStream
  | 0, s => some s
  | count + 1, s => read s >>= repeatRead read count

mutual

/-- `Element::Ignore`: skip one value of the element; a map's value is its size, then each
entry's key, a string, and value. An alternative past the union's last is `none`. -/
def Element.ignore : Element → ReadStream → Option ReadStream
  | .scalar _ type, s => type.skip s
  | .enum _, s => s.read.map Prod.snd
  | .object _ fields, s => fields.ignore s
  | .array _ child, s => do
    let (size, s) ← s.readCount
    repeatRead child.ignore size s
  | .fixedArray _ arraySize child, s => repeatRead child.ignore arraySize s
  | .map _ child, s => do
    let (size, s) ← s.readCount
    repeatRead (fun s => s.read.map Prod.snd >>= child.ignore) size s
  | .union _ children, s => do
    let (index, s) ← s.readCount
    children.ignoreAt index s

/-- Skip every field of an object. -/
def Fields.ignore : Fields → ReadStream → Option ReadStream
  | .nil, s => some s
  | .cons _ element rest, s => element.ignore s >>= rest.ignore

/-- Skip the alternative `children[index]`. -/
def Elements.ignoreAt : Elements → ℕ → ReadStream → Option ReadStream
  | .nil, _, _ => none
  | .cons element _, 0, s => element.ignore s
  | .cons _ rest, index + 1, s => rest.ignoreAt index s

end

/-- The entries a scalar of this type takes when their count does not depend on the value. -/
def Scalar.maybeFixedSize : Scalar → Option ℕ
  | .kFinal | .kNull => some 0
  | .kBoolean | .kFixedInt | .kFixedUInt | .kFloat32 | .kFloat64 | .kTimestamp | .kDuration =>
    some 1
  | .kVarint | .kVaruint | .kBytes | .kString => none

mutual

/-- `maybe_fixed_size`: the entries every value of the element takes, when that is one count. -/
def Element.maybeFixedSize : Element → Option ℕ
  | .scalar _ type => type.maybeFixedSize
  | .enum _ | .array _ _ | .map _ _ | .union _ _ => none
  | .object _ fields => fields.maybeFixedSize
  | .fixedArray _ arraySize child => child.maybeFixedSize.map (arraySize * ·)

/-- The fixed size of an object: the sum of its fields', when each has one. -/
def Fields.maybeFixedSize : Fields → Option ℕ
  | .nil => some 0
  | .cons _ element rest => do
    let size ← element.maybeFixedSize
    let more ← rest.maybeFixedSize
    pure (size + more)

end

/-- `TreeView::Parent`: where `VisitElement` stands, as `RenderToken` spells it. `top` is the
`Parent` of `Render`; `field` and `item` are the `new_parent` of an object's field and of an
array's item. -/
inductive Parent
  | top
  | field (parent : Parent) (object : Element)
  | item (parent : Parent) (array : Element) (index : ℕ)

/-- `Parent::RenderToken(child)`: the array index, or else the child's name, after the
enclosing element's token and a `.`. -/
def Parent.renderToken : Parent → Element → String
  | .top, child => child.name
  | .field parent object, child => parent.renderToken object ++ "." ++ child.name
  | .item parent array index, _ => parent.renderToken array ++ "." ++ toString index

/-- A leaf `VisitElement` offers as a drag source: the token it drags, the leaf, and the item's
data from the leaf's value on. -/
structure Row where
  token : String
  leaf : Element
  data : ReadStream

/-- `do_array`: the items from `index` on, `count` of them, each under its own `Parent`. -/
def doArray (visitItem : ℕ → ReadStream → Option (List Row × ReadStream)) :
    ℕ → ℕ → ReadStream → Option (List Row × ReadStream)
  | _, 0, s => some ([], s)
  | index, count + 1, s => do
    let (rows, s) ← visitItem index s
    let (more, s) ← doArray visitItem (index + 1) count s
    pure (rows ++ more, s)

/-- An object without fields is a leaf of the tree. -/
def Fields.leafRows (fields : Fields) (row : Row) : List Row :=
  match fields with
  | .nil => [row]
  | .cons .. => []

mutual

/-- `VisitElement` with every node expanded: the drag sources of the element's leaves in the
order the tree shows them, and the data after the element. A union forwards to the alternative
the data names, under the same `Parent`; an alternative past the last is `none`. -/
def Element.visit : Element → Parent → ReadStream → Option (List Row × ReadStream)
  | .union _ children, parent, s => do
    let (index, s) ← s.readCount
    children.visitAt index parent s
  | leaf@(.scalar _ type), parent, s => do
    let rest ← type.skip s
    pure ([⟨parent.renderToken leaf, leaf, s⟩], rest)
  | leaf@(.enum _), parent, s => do
    let (_, rest) ← s.read
    pure ([⟨parent.renderToken leaf, leaf, s⟩], rest)
  | object@(.object _ fields), parent, s => do
    let (rows, rest) ← fields.visit (.field parent object) s
    pure (fields.leafRows ⟨parent.renderToken object, object, s⟩ ++ rows, rest)
  | array@(.array _ child), parent, s => do
    let (size, s) ← s.readCount
    doArray (fun index => child.visit (.item parent array index)) 0 size s
  | array@(.fixedArray _ arraySize child), parent, s =>
    doArray (fun index => child.visit (.item parent array index)) 0 arraySize s
  | map@(.map _ _), _, s => (map.ignore s).map ([], ·)

/-- The fields of an object, one after another, each under the object's `Parent`. -/
def Fields.visit : Fields → Parent → ReadStream → Option (List Row × ReadStream)
  | .nil, _, s => some ([], s)
  | .cons _ element rest, parent, s => do
    let (rows, s) ← element.visit parent s
    let (more, s) ← rest.visit parent s
    pure (rows ++ more, s)

/-- `VisitElement(children[index], ...)`. -/
def Elements.visitAt : Elements → ℕ → Parent → ReadStream → Option (List Row × ReadStream)
  | .nil, _, _, _ => none
  | .cons element _, 0, parent, s => element.visit parent s
  | .cons _ rest, index + 1, parent, s => rest.visitAt index parent s

end

mutual

/-- `VisitElement` as the UI drives it. `expanded` is what `ImGui::TreeNodeEx` answers, the open
state the UI keeps for a node, by the node's place in the tree: the positions of the fields and
items on the way to it, innermost first (`node`); a union is no node, and its alternative stands
at its place. A leaf reads its value and is a drag source whichever way it is shown; a collapsed
object, array or fixed array, and a map either way, is skipped with `Ignore`. -/
def Element.visitElement (expanded : List ℕ → Bool) :
    Element → List ℕ → Parent → ReadStream → Option (List Row × ReadStream)
  | .union _ children, node, parent, s => do
    let (index, s) ← s.readCount
    children.visitElementAt expanded index node parent s
  | leaf@(.scalar _ type), _, parent, s => do
    let rest ← type.skip s
    pure ([⟨parent.renderToken leaf, leaf, s⟩], rest)
  | leaf@(.enum _), _, parent, s => do
    let (_, rest) ← s.read
    pure ([⟨parent.renderToken leaf, leaf, s⟩], rest)
  | object@(.object _ fields), node, parent, s =>
    let own := fields.leafRows ⟨parent.renderToken object, object, s⟩
    if expanded node then do
      let (rows, rest) ← fields.visitElement expanded 0 node (.field parent object) s
      pure (own ++ rows, rest)
    else (object.ignore s).map (own, ·)
  | array@(.array _ child), node, parent, s =>
    if expanded node then do
      let (size, s) ← s.readCount
      doArray (fun index => child.visitElement expanded (index :: node) (.item parent array index))
        0 size s
    else (array.ignore s).map ([], ·)
  | array@(.fixedArray _ arraySize child), node, parent, s =>
    if expanded node then
      doArray (fun index => child.visitElement expanded (index :: node) (.item parent array index))
        0 arraySize s
    else (array.ignore s).map ([], ·)
  | map@(.map _ _), _, _, s => (map.ignore s).map ([], ·)

/-- The fields of an expanded object, each under the object's `Parent`, from the field at
`position` on. -/
def Fields.visitElement (expanded : List ℕ → Bool) :
    Fields → ℕ → List ℕ → Parent → ReadStream → Option (List Row × ReadStream)
  | .nil, _, _, _, s => some ([], s)
  | .cons _ element rest, position, node, parent, s => do
    let (rows, s) ← element.visitElement expanded (position :: node) parent s
    let (more, s) ← rest.visitElement expanded (position + 1) node parent s
    pure (rows ++ more, s)

/-- `VisitElement(children[index], ...)`, at the union's place. -/
def Elements.visitElementAt (expanded : List ℕ → Bool) :
    Elements → ℕ → List ℕ → Parent → ReadStream → Option (List Row × ReadStream)
  | .nil, _, _, _, _ => none
  | .cons element _, 0, node, parent, s => element.visitElement expanded node parent s
  | .cons _ rest, index + 1, node, parent, s => rest.visitElementAt expanded index node parent s

end

section Walks

variable {read : ReadStream → Option ReadStream}
  {visitItem : ℕ → ReadStream → Option (List Row × ReadStream)}

/-- When each item's walk reads what `read` skips, `do_array` reads what `count` skips do. -/
theorem doArray_repeat (consumes : ∀ index s rows rest, visitItem index s = some (rows, rest) →
      read s = some rest) :
    ∀ {count index s rows rest}, doArray visitItem index count s = some (rows, rest) →
      repeatRead read count s = some rest
  | 0, _, _, _, _, walked => by
    simp only [doArray, Option.some.injEq, Prod.mk.injEq] at walked
    simp [repeatRead, walked.2]
  | count + 1, index, s, rows, rest, walked => by
    simp only [doArray, Option.bind_eq_bind, Option.bind_eq_some, Option.pure_def,
      Option.some.injEq] at walked
    obtain ⟨⟨itemRows, middle⟩, item, ⟨moreRows, last⟩, more, rfl, rfl⟩ := walked
    rw [repeatRead, consumes _ _ _ _ item]
    exact doArray_repeat consumes more

/-- When each item's walk leaves the data where `read` does, so does `do_array`, failing exactly
when `count` reads do. -/
theorem doArray_skips (each : ∀ index s, (visitItem index s).map Prod.snd = read s) :
    ∀ count index s, (doArray visitItem index count s).map Prod.snd = repeatRead read count s
  | 0, _, _ => rfl
  | count + 1, index, s => by
    have first := each index s
    simp only [doArray, repeatRead]
    rcases visited : visitItem index s with _ | ⟨rows, after⟩
    · rw [visited] at first
      simp [← first]
    · rw [visited] at first
      simp only [← first, Option.map_some', Option.bind_eq_bind, Option.some_bind]
      rw [← doArray_skips each count (index + 1) after]
      rcases doArray visitItem (index + 1) count after with _ | ⟨more, rest⟩ <;> rfl

/-- A row of `do_array` comes from one item, reached by skipping the items before it. -/
theorem doArray_mem (consumes : ∀ index s rows rest, visitItem index s = some (rows, rest) →
      read s = some rest) {row : Row} :
    ∀ {count index s rows rest}, doArray visitItem index count s = some (rows, rest) →
      row ∈ rows → ∃ offset < count, ∃ at_ itemRows after,
        repeatRead read offset s = some at_ ∧
        visitItem (index + offset) at_ = some (itemRows, after) ∧ row ∈ itemRows
  | 0, _, _, _, _, walked, member => by
    simp only [doArray, Option.some.injEq, Prod.mk.injEq] at walked
    simp [← walked.1] at member
  | count + 1, index, s, rows, rest, walked, member => by
    simp only [doArray, Option.bind_eq_bind, Option.bind_eq_some, Option.pure_def,
      Option.some.injEq] at walked
    obtain ⟨⟨itemRows, middle⟩, item, ⟨moreRows, last⟩, more, rfl, rfl⟩ := walked
    rcases List.mem_append.mp member with here | later
    · exact ⟨0, by omega, s, itemRows, middle, rfl, by simpa using item, here⟩
    · obtain ⟨offset, below, at_, found, after, skipped, visited, inside⟩ :=
        doArray_mem consumes more later
      refine ⟨offset + 1, by omega, at_, found, after, ?_, ?_, inside⟩
      · rw [repeatRead, consumes _ _ _ _ item]; exact skipped
      · rwa [Nat.add_assoc, Nat.add_comm 1] at visited

/-- When each item's walk as the UI shows it is a part of the fully open walk and ends where
that walk ends, so is `do_array`'s. -/
theorem doArray_sublist {visitAll : ℕ → ReadStream → Option (List Row × ReadStream)}
    (each : ∀ index s rows rest, visitItem index s = some (rows, rest) →
      ∃ all, visitAll index s = some (all, rest) ∧ rows.Sublist all) :
    ∀ {count index s rows rest}, doArray visitItem index count s = some (rows, rest) →
      ∃ all, doArray visitAll index count s = some (all, rest) ∧ rows.Sublist all
  | 0, _, _, _, _, walked => by
    simp only [doArray, Option.some.injEq, Prod.mk.injEq] at walked
    obtain ⟨rfl, rfl⟩ := walked
    exact ⟨[], rfl, .slnil⟩
  | count + 1, index, s, rows, rest, walked => by
    simp only [doArray, Option.bind_eq_bind, Option.bind_eq_some, Option.pure_def,
      Option.some.injEq] at walked
    obtain ⟨⟨itemRows, middle⟩, item, ⟨moreRows, last⟩, more, rfl, rfl⟩ := walked
    obtain ⟨itemAll, itemWhole, itemSub⟩ := each _ _ _ _ item
    obtain ⟨moreAll, moreWhole, moreSub⟩ := doArray_sublist each more
    refine ⟨itemAll ++ moreAll, ?_, itemSub.append moreSub⟩
    simp only [doArray, itemWhole, moreWhole, Option.bind_eq_bind, Option.some_bind,
      Option.pure_def]

/-- A read that always skips `size` entries skips `count * size` when repeated `count` times. -/
theorem repeatRead_fixed {size : ℕ} (each : ∀ {s rest}, read s = some rest → rest = s.drop size) :
    ∀ {count s rest}, repeatRead read count s = some rest → rest = s.drop (count * size)
  | 0, _, _, skipped => by simpa [repeatRead] using skipped.symm
  | count + 1, s, rest, skipped => by
    simp only [repeatRead, Option.bind_eq_bind, Option.bind_eq_some] at skipped
    obtain ⟨middle, first, more⟩ := skipped
    rw [repeatRead_fixed each more, each first, List.drop_drop, Nat.succ_mul, Nat.add_comm]

end Walks

theorem Scalar.skip_fixed {type : Scalar} {size : ℕ} {s rest : ReadStream}
    (fixed : type.maybeFixedSize = some size) (skipped : type.skip s = some rest) :
    rest = s.drop size := by
  cases s <;> cases type <;>
    simp_all [Scalar.maybeFixedSize, Scalar.skip, ReadStream.read, eq_comm]

mutual

/-- `maybe_fixed_size` is what `Ignore` skips, for every value. -/
theorem Element.ignore_fixed : ∀ (element : Element) {size : ℕ} {s rest : ReadStream},
    element.maybeFixedSize = some size → element.ignore s = some rest → rest = s.drop size
  | .scalar _ _, _, _, _, fixed, skipped => Scalar.skip_fixed fixed skipped
  | .enum _, _, _, _, fixed, _ | .array _ _, _, _, _, fixed, _ | .map _ _, _, _, _, fixed, _
  | .union _ _, _, _, _, fixed, _ => by
    simp [Element.maybeFixedSize] at fixed
  | .object _ fields, _, _, _, fixed, skipped => fields.ignore_fixed fixed skipped
  | .fixedArray _ _ child, _, _, _, fixed, skipped => by
    simp only [Element.maybeFixedSize, Option.map_eq_some'] at fixed
    obtain ⟨childSize, childFixed, rfl⟩ := fixed
    exact repeatRead_fixed (fun item => child.ignore_fixed childFixed item) skipped

/-- An object's fixed size is what skipping its fields skips. -/
theorem Fields.ignore_fixed : ∀ (fields : Fields) {size : ℕ} {s rest : ReadStream},
    fields.maybeFixedSize = some size → fields.ignore s = some rest → rest = s.drop size
  | .nil, _, _, _, fixed, skipped => by
    simp only [Fields.maybeFixedSize, Option.some.injEq] at fixed
    simp only [Fields.ignore, Option.some.injEq] at skipped
    simp [← fixed, skipped]
  | .cons _ element more, _, _, _, fixed, skipped => by
    simp only [Fields.maybeFixedSize, Option.bind_eq_bind, Option.bind_eq_some, Option.pure_def,
      Option.some.injEq] at fixed
    obtain ⟨first, firstFixed, last, lastFixed, rfl⟩ := fixed
    simp only [Fields.ignore, Option.bind_eq_bind, Option.bind_eq_some] at skipped
    obtain ⟨middle, skippedFirst, skippedLast⟩ := skipped
    rw [more.ignore_fixed lastFixed skippedLast, element.ignore_fixed firstFixed skippedFirst,
      List.drop_drop, Nat.add_comm]

end

mutual

/-- Whatever the UI expands, the walk over an element leaves the data where `Ignore` does, and
fails exactly when `Ignore` does. -/
theorem Element.visitElement_skips (expanded : List ℕ → Bool) : ∀ (element : Element)
    (node : List ℕ) (parent : Parent) (s : ReadStream),
    (element.visitElement expanded node parent s).map Prod.snd = element.ignore s
  | .union _ children, node, parent, s => by
    simp only [Element.visitElement, Element.ignore]
    rcases s.readCount with _ | ⟨index, after⟩
    · rfl
    · exact children.visitElementAt_skips expanded index node parent after
  | .scalar _ type, _, _, s => by
    simp only [Element.visitElement, Element.ignore]
    rcases type.skip s with _ | rest <;> rfl
  | .enum _, _, _, s => by cases s <;> rfl
  | .object _ fields, node, parent, s => by
    simp only [Element.visitElement]
    split
    · rw [Element.ignore, ← fields.visitElement_skips expanded 0 node]
      rcases fields.visitElement expanded 0 node _ s with _ | ⟨rows, rest⟩ <;> rfl
    · rcases Element.ignore _ s with _ | rest <;> rfl
  | .array _ child, node, parent, s => by
    simp only [Element.visitElement]
    split
    · simp only [Element.ignore]
      rcases s.readCount with _ | ⟨size, after⟩
      · rfl
      · exact doArray_skips (fun index => child.visitElement_skips expanded (index :: node) _) _ _ _
    · rcases Element.ignore _ s with _ | rest <;> rfl
  | .fixedArray _ _ child, node, parent, s => by
    simp only [Element.visitElement]
    split
    · exact doArray_skips (fun index => child.visitElement_skips expanded (index :: node) _) _ _ _
    · rcases Element.ignore _ s with _ | rest <;> rfl
  | .map _ _, _, _, s => by
    simp only [Element.visitElement]
    rcases Element.ignore _ s with _ | rest <;> rfl

/-- The walk over an expanded object's fields leaves the data where skipping them does. -/
theorem Fields.visitElement_skips (expanded : List ℕ → Bool) : ∀ (fields : Fields) (position : ℕ)
    (node : List ℕ) (parent : Parent) (s : ReadStream),
    (fields.visitElement expanded position node parent s).map Prod.snd = fields.ignore s
  | .nil, _, _, _, _ => rfl
  | .cons _ element rest, position, node, parent, s => by
    have first := element.visitElement_skips expanded (position :: node) parent s
    simp only [Fields.visitElement, Fields.ignore]
    rcases visited : element.visitElement expanded (position :: node) parent s with _ | ⟨rows, after⟩
    · rw [visited] at first
      simp [← first]
    · rw [visited] at first
      simp only [← first, Option.map_some', Option.bind_eq_bind, Option.some_bind]
      rw [← rest.visitElement_skips expanded (position + 1) node parent after]
      rcases rest.visitElement expanded (position + 1) node parent after with _ | ⟨more, last⟩ <;> rfl

/-- The walk over a union's alternative leaves the data where skipping it does. -/
theorem Elements.visitElementAt_skips (expanded : List ℕ → Bool) : ∀ (children : Elements)
    (index : ℕ) (node : List ℕ) (parent : Parent) (s : ReadStream),
    (children.visitElementAt expanded index node parent s).map Prod.snd = children.ignoreAt index s
  | .nil, _, _, _, _ => rfl
  | .cons element _, 0, node, parent, s => element.visitElement_skips expanded node parent s
  | .cons _ rest, index + 1, node, parent, s => rest.visitElementAt_skips expanded index node parent s

end

mutual

/-- With every node open, the walk is `visit`. -/
theorem Element.visitElement_expanded : ∀ (element : Element) (node : List ℕ) (parent : Parent),
    element.visitElement (fun _ => true) node parent = element.visit parent
  | .union _ children, node, parent => by
    funext s
    simp only [Element.visitElement, Element.visit, children.visitElementAt_expanded]
  | .scalar _ _, _, _ | .enum _, _, _ | .map _ _, _, _ => rfl
  | .object _ fields, node, parent => by
    funext s
    simp only [Element.visitElement, Element.visit, fields.visitElement_expanded, if_true]
  | .array _ child, node, parent => by
    funext s
    simp only [Element.visitElement, Element.visit, child.visitElement_expanded, if_true]
  | .fixedArray _ _ child, node, parent => by
    funext s
    simp only [Element.visitElement, Element.visit, child.visitElement_expanded, if_true]

/-- With every node open, the walk over an object's fields is `visit`'s. -/
theorem Fields.visitElement_expanded : ∀ (fields : Fields) (position : ℕ) (node : List ℕ)
    (parent : Parent), fields.visitElement (fun _ => true) position node parent = fields.visit parent
  | .nil, _, _, _ => rfl
  | .cons _ element rest, position, node, parent => by
    funext s
    simp only [Fields.visitElement, Fields.visit, element.visitElement_expanded,
      rest.visitElement_expanded]

/-- With every node open, the walk over a union's alternative is `visit`'s. -/
theorem Elements.visitElementAt_expanded : ∀ (children : Elements) (index : ℕ) (node : List ℕ)
    (parent : Parent),
    children.visitElementAt (fun _ => true) index node parent = children.visitAt index parent
  | .nil, _, _, _ => rfl
  | .cons element _, 0, node, parent => element.visitElement_expanded node parent
  | .cons _ rest, index + 1, node, parent => rest.visitElementAt_expanded index node parent

end

/-- The fully open walk over an element, given that `Ignore` skips its value. -/
theorem Element.visit_of_ignore {element : Element} (parent : Parent) {s rest : ReadStream}
    (skipped : element.ignore s = some rest) : ∃ all, element.visit parent s = some (all, rest) := by
  have walked := element.visitElement_skips (fun _ => true) [] parent s
  rw [element.visitElement_expanded, skipped] at walked
  obtain ⟨⟨all, after⟩, whole, rfl⟩ := Option.map_eq_some'.mp walked
  exact ⟨all, whole⟩

mutual

/-- Whatever the UI opens and collapses, the walk over an element shows a part, in order, of
the rows it shows with every node open, and ends where that walk ends: collapsing a node hides
the leaves below it and shifts nothing else. -/
theorem Element.visitElement_sublist (expanded : List ℕ → Bool) : ∀ (element : Element)
    (node : List ℕ) (parent : Parent) {s : ReadStream} {rows : List Row} {rest : ReadStream},
    element.visitElement expanded node parent s = some (rows, rest) →
      ∃ all, element.visit parent s = some (all, rest) ∧ rows.Sublist all
  | .union _ children, node, parent, s, _, _, walked => by
    simp only [Element.visitElement, Option.bind_eq_bind, Option.bind_eq_some] at walked
    obtain ⟨⟨index, after⟩, read, walked⟩ := walked
    obtain ⟨all, whole, sub⟩ := children.visitElementAt_sublist expanded index node parent walked
    refine ⟨all, ?_, sub⟩
    simp only [Element.visit, read, whole, Option.bind_eq_bind, Option.some_bind]
  | .scalar _ _, _, _, _, _, _, walked | .enum _, _, _, _, _, _, walked
  | .map _ _, _, _, _, _, _, walked => ⟨_, walked, List.Sublist.refl _⟩
  | .object _ fields, node, parent, s, rows, rest, walked => by
    simp only [Element.visitElement] at walked
    split at walked
    · simp only [Option.bind_eq_bind, Option.bind_eq_some, Option.pure_def,
        Option.some.injEq, Prod.mk.injEq] at walked
      obtain ⟨⟨fieldRows, after⟩, visited, rfl, rfl⟩ := walked
      obtain ⟨all, whole, sub⟩ := fields.visitElement_sublist expanded 0 node _ visited
      refine ⟨_, ?_, sub.append_left _⟩
      simp only [Element.visit, whole, Option.bind_eq_bind, Option.some_bind, Option.pure_def]
    · obtain ⟨after, skipped, same⟩ := Option.map_eq_some'.mp walked
      cases same
      obtain ⟨all, whole⟩ := Element.visit_of_ignore parent skipped
      refine ⟨all, whole, ?_⟩
      simp only [Element.visit, Option.bind_eq_bind, Option.bind_eq_some, Option.pure_def,
        Option.some.injEq] at whole
      obtain ⟨⟨fieldRows, _⟩, -, ⟨⟩⟩ := whole
      exact List.sublist_append_left _ _
  | .array _ child, node, parent, s, rows, rest, walked => by
    simp only [Element.visitElement] at walked
    split at walked
    · simp only [Option.bind_eq_bind, Option.bind_eq_some] at walked
      obtain ⟨⟨size, after⟩, read, walked⟩ := walked
      obtain ⟨all, whole, sub⟩ := doArray_sublist (fun index _ _ _ item =>
        child.visitElement_sublist expanded (index :: node) _ item) walked
      refine ⟨all, ?_, sub⟩
      simp only [Element.visit, read, Option.bind_eq_bind, Option.some_bind]
      exact whole
    · obtain ⟨after, skipped, same⟩ := Option.map_eq_some'.mp walked
      cases same
      obtain ⟨all, whole⟩ := Element.visit_of_ignore parent skipped
      exact ⟨all, whole, List.nil_sublist _⟩
  | .fixedArray _ _ child, node, parent, s, rows, rest, walked => by
    simp only [Element.visitElement] at walked
    split at walked
    · exact doArray_sublist (fun index _ _ _ item =>
        child.visitElement_sublist expanded (index :: node) _ item) walked
    · obtain ⟨after, skipped, same⟩ := Option.map_eq_some'.mp walked
      cases same
      obtain ⟨all, whole⟩ := Element.visit_of_ignore parent skipped
      exact ⟨all, whole, List.nil_sublist _⟩

/-- The same for an expanded object's fields. -/
theorem Fields.visitElement_sublist (expanded : List ℕ → Bool) : ∀ (fields : Fields)
    (position : ℕ) (node : List ℕ) (parent : Parent) {s : ReadStream} {rows : List Row}
    {rest : ReadStream}, fields.visitElement expanded position node parent s = some (rows, rest) →
      ∃ all, fields.visit parent s = some (all, rest) ∧ rows.Sublist all
  | .nil, _, _, _, _, _, _, walked => ⟨_, walked, List.Sublist.refl _⟩
  | .cons _ element more, position, node, parent, s, rows, rest, walked => by
    simp only [Fields.visitElement, Option.bind_eq_bind, Option.bind_eq_some, Option.pure_def,
      Option.some.injEq] at walked
    obtain ⟨⟨firstRows, middle⟩, first, ⟨moreRows, last⟩, later, rfl, rfl⟩ := walked
    obtain ⟨firstAll, firstWhole, firstSub⟩ :=
      element.visitElement_sublist expanded (position :: node) parent first
    obtain ⟨moreAll, moreWhole, moreSub⟩ :=
      more.visitElement_sublist expanded (position + 1) node parent later
    refine ⟨firstAll ++ moreAll, ?_, firstSub.append moreSub⟩
    simp only [Fields.visit, firstWhole, moreWhole, Option.bind_eq_bind, Option.some_bind,
      Option.pure_def]

/-- The same for a union's alternative. -/
theorem Elements.visitElementAt_sublist (expanded : List ℕ → Bool) : ∀ (children : Elements)
    (index : ℕ) (node : List ℕ) (parent : Parent) {s : ReadStream} {rows : List Row}
    {rest : ReadStream}, children.visitElementAt expanded index node parent s = some (rows, rest) →
      ∃ all, children.visitAt index parent s = some (all, rest) ∧ rows.Sublist all
  | .nil, _, _, _, _, _, _, walked => nomatch walked
  | .cons element _, 0, node, parent, _, _, _, walked =>
    element.visitElement_sublist expanded node parent walked
  | .cons _ others, index + 1, node, parent, _, _, _, walked =>
    others.visitElementAt_sublist expanded index node parent walked

end

/-- The tree view's walk over an element reads exactly what `Ignore` skips. -/
theorem Element.visit_ignore : ∀ (element : Element) {parent : Parent} {s : ReadStream}
    {rows : List Row} {rest : ReadStream},
    element.visit parent s = some (rows, rest) → element.ignore s = some rest := by
  intro element parent s rows rest walked
  rw [← element.visitElement_skips (fun _ => true) [] parent s, element.visitElement_expanded,
    walked]
  rfl

/-- The walk over an object's fields reads exactly what their `Ignore`s skip. -/
theorem Fields.visit_ignore : ∀ (fields : Fields) {parent : Parent} {s : ReadStream}
    {rows : List Row} {rest : ReadStream},
    fields.visit parent s = some (rows, rest) → fields.ignore s = some rest := by
  intro fields parent s rows rest walked
  rw [← fields.visitElement_skips (fun _ => true) 0 [] parent s, fields.visitElement_expanded,
    walked]
  rfl

/-- The walk over a union's alternative reads exactly what its `Ignore` skips. -/
theorem Elements.visitAt_ignoreAt : ∀ (children : Elements) {index : ℕ} {parent : Parent}
    {s : ReadStream} {rows : List Row} {rest : ReadStream},
    children.visitAt index parent s = some (rows, rest) → children.ignoreAt index s = some rest := by
  intro children index parent s rows rest walked
  rw [← children.visitElementAt_skips (fun _ => true) index [] parent s,
    children.visitElementAt_expanded, walked]
  rfl

end Mjmech.Tplot
