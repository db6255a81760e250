import Mjmech.Tplot.Format
import Mjmech.Tplot.Retrieve
import Mathlib.Data.List.Forall2

/-! What an item's data means, and what `ValueRetrieve::operator()` reads of it. A `Value` is a
decoded value of a record: scalars, enum codes, objects, arrays, maps and the alternative a
union holds. `Value.write` lays it out as the telemetry format does, and a value of an element
(`Element.Typed`) is written as one well-formed value of it (`Element.encodes_write`). The
semantic target is independent of the code: `Element.lookup` follows a chain of links through a
decoded value. `operator()` instead walks the item's data as a stream, skipping the fields
before the one a link names with `Ignore` and the items before an index either one by one or,
for a child of fixed size, by one jump of `index * maybe_fixed_size`. The two ways of skipping
items agree on every well-formed array (`skipItems_eq_repeatRead`), and for every chain the
constructor builds, the walk over a value's data returns what the lookup in the decoded value
returns (`ValueRetrieve.apply_write`). On the tree view's side, `Element.leaves` lists the
leaves of a decoded value; with every node open, `VisitElement` over the value's data offers
one row per leaf, in order (`Element.visit_write`); under any choice of open and collapsed
nodes it offers a part of those rows (`visitElement_shows_leaves`); and a leaf's token, dragged
to the plot, plots on that item the value the leaf decodes to (`drag_token_plots_decoded_leaf`). -/
namespace Mjmech.Tplot

/-- A decoded value: a scalar's primitive, nothing for `kFinal` and `kNull`, an enum's code, an
object's fields in order, an array's or a fixed array's items, a map's entries with their keys,
or a union's index and the value of that alternative. -/
inductive Value
  | scalar (value : ℚ)
  | empty
  | enum (code : ℚ)
  | object (fields : List Value)
  | array (items : List Value)
  | fixedArray (items : List Value)
  | map (entries : List (ℚ × Value))
  | union (index : ℕ) (value : Value)

mutual

/-- The data the format writes for a value: one entry per primitive, an array's and a map's
size before its items, a union's index before its alternative's value. -/
def Value.write : Value → ReadStream
  | .scalar value => [value]
  | .empty => []
  | .enum code => [code]
  | .object fields => Value.writeAll fields
  | .array items => (items.length : ℚ) :: Value.writeAll items
  | .fixedArray items => Value.writeAll items
  | .map entries => (entries.length : ℚ) :: Value.writeEntries entries
  | .union index value => (index : ℚ) :: value.write

/-- Values one after another. -/
def Value.writeAll : List Value → ReadStream
  | [] => []
  | value :: values => value.write ++ Value.writeAll values

/-- A map's entries, each its key and its value. -/
def Value.writeEntries : List (ℚ × Value) → ReadStream
  | [] => []
  | (key, value) :: entries => key :: value.write ++ Value.writeEntries entries

end

theorem Value.writeAll_eq (values : List Value) :
    Value.writeAll values = (values.map Value.write).flatten := by
  induction values with
  | nil => rfl
  | cons value values ih => rw [Value.writeAll, ih]; rfl

theorem Value.writeEntries_eq (entries : List (ℚ × Value)) :
    Value.writeEntries entries = (entries.map fun entry => entry.1 :: entry.2.write).flatten := by
  induction entries with
  | nil => rfl
  | cons entry entries ih => rw [Value.writeEntries, ih]; rfl

mutual

/-- `value` is a value of `element`: its shape follows the schema, a fixed array holds
`array_size` items and a union's index names one of its alternatives. -/
inductive Element.Typed : Element → Value → Prop
  | scalar {name : String} {type : Scalar} (value : ℚ) : type ≠ .kFinal → type ≠ .kNull →
      Element.Typed (.scalar name type) (.scalar value)
  | final {name : String} : Element.Typed (.scalar name .kFinal) .empty
  | null {name : String} : Element.Typed (.scalar name .kNull) .empty
  | enum {name : String} (code : ℚ) : Element.Typed (.enum name) (.enum code)
  | object {name : String} {fields : Fields} {values : List Value} :
      Fields.Typed fields values → Element.Typed (.object name fields) (.object values)
  | array {name : String} {child : Element} (items : List Value) :
      (∀ item ∈ items, Element.Typed child item) → Element.Typed (.array name child) (.array items)
  | fixedArray {name : String} {arraySize : ℕ} {child : Element} (items : List Value) :
      items.length = arraySize → (∀ item ∈ items, Element.Typed child item) →
        Element.Typed (.fixedArray name arraySize child) (.fixedArray items)
  | map {name : String} {child : Element} (entries : List (ℚ × Value)) :
      (∀ entry ∈ entries, Element.Typed child entry.2) →
        Element.Typed (.map name child) (.map entries)
  | union {name : String} {children : Elements} {index : ℕ} {value : Value} :
      Elements.TypedAt children index value →
        Element.Typed (.union name children) (.union index value)

/-- One value per field, in order. -/
inductive Fields.Typed : Fields → List Value → Prop
  | nil : Fields.Typed .nil []
  | cons {name : String} {element : Element} {rest : Fields} {value : Value}
      {values : List Value} : Element.Typed element value → Fields.Typed rest values →
        Fields.Typed (.cons name element rest) (value :: values)

/-- A value of the alternative `children[index]`. -/
inductive Elements.TypedAt : Elements → ℕ → Value → Prop
  | here {element : Element} {rest : Elements} {value : Value} :
      Element.Typed element value → Elements.TypedAt (.cons element rest) 0 value
  | there {element : Element} {rest : Elements} {index : ℕ} {value : Value} :
      Elements.TypedAt rest index value → Elements.TypedAt (.cons element rest) (index + 1) value

end

mutual

/-- The writer's output for a value of an element is a well-formed value of it. -/
theorem Element.encodes_write : ∀ (element : Element) {value : Value}, element.Typed value →
    element.Encodes value.write
  | .scalar _ _, _, .scalar value notFinal notNull => .scalar value notFinal notNull
  | .scalar _ _, _, .final => .final
  | .scalar _ _, _, .null => .null
  | .enum _, _, .enum code => .enum code
  | .object _ fields, _, .object typed => .object (fields.encodes_write typed)
  | .array name child, _, .array items each => by
    have encodes : Element.Encodes (.array name child) _ := .array (items.map Value.write)
      fun item member => by
        obtain ⟨value, inside, rfl⟩ := List.mem_map.mp member
        exact child.encodes_write (each value inside)
    rwa [List.length_map, ← Value.writeAll_eq] at encodes
  | .fixedArray name _ child, _, .fixedArray items counted each => by
    have encodes : Element.Encodes (.fixedArray name items.length child) _ :=
      .fixedArray (items.map Value.write) (List.length_map _ _) fun item member => by
        obtain ⟨value, inside, rfl⟩ := List.mem_map.mp member
        exact child.encodes_write (each value inside)
    rwa [counted, ← Value.writeAll_eq] at encodes
  | .map name child, _, .map entries each => by
    have encodes : Element.Encodes (.map name child) _ :=
      .map (entries.map fun entry => (entry.1, entry.2.write)) fun entry member => by
        obtain ⟨⟨key, value⟩, inside, rfl⟩ := List.mem_map.mp member
        exact child.encodes_write (each _ inside)
    rwa [List.length_map, List.map_map, Function.comp_def, ← Value.writeEntries_eq] at encodes
  | .union _ children, _, .union typed => .union (children.encodesAt_write typed)

/-- The fields' values, written one after another, are one value of each field. -/
theorem Fields.encodes_write : ∀ (fields : Fields) {values : List Value}, fields.Typed values →
    fields.Encodes (Value.writeAll values)
  | .nil, _, .nil => .nil
  | .cons _ element rest, _, .cons first more =>
    .cons (element.encodes_write first) (rest.encodes_write more)

/-- A value of an alternative, written, is a value of it. -/
theorem Elements.encodesAt_write : ∀ (children : Elements) {index : ℕ} {value : Value},
    Elements.TypedAt children index value → Elements.EncodesAt children index value.write
  | .cons element _, _, _, .here typed => .here (element.encodes_write typed)
  | .cons _ rest, _, _, .there typed => .there (rest.encodesAt_write typed)

end

section Skips

/-- `maybe_fixed_size` is exact: every well-formed value of an element of fixed size takes that
many entries. -/
theorem Element.Encodes.length_of_fixed {element : Element} {size : ℕ} {encoding : ReadStream}
    (fixed : element.maybeFixedSize = some size) (encodes : element.Encodes encoding) :
    encoding.length = size := by
  have skipped := element.ignore_encoding encodes (List.replicate size 0)
  have dropped := congrArg List.length (element.ignore_fixed fixed skipped)
  simp only [List.length_drop, List.length_append, List.length_replicate] at dropped
  omega

theorem length_flatten_of_length {size : ℕ} :
    ∀ {items : List ReadStream}, (∀ item ∈ items, item.length = size) →
      items.flatten.length = items.length * size
  | [], _ => by simp
  | item :: items, sized => by
    rw [List.flatten_cons, List.length_append, sized item (List.mem_cons_self _ _),
      length_flatten_of_length fun other member => sized other (List.mem_cons_of_mem _ member),
      List.length_cons, Nat.succ_mul, Nat.add_comm]

/-- Items of one length `size`: dropping `index * size` entries drops the first `index`
items. -/
theorem drop_flatten_of_length {size : ℕ} :
    ∀ {items : List ReadStream}, (∀ item ∈ items, item.length = size) → ∀ (index : ℕ),
      items.flatten.drop (index * size) = (items.drop index).flatten
  | [], _, index => by simp
  | _ :: _, _, 0 => by simp
  | item :: items, sized, index + 1 => by
    rw [List.flatten_cons, Nat.succ_mul, Nat.add_comm, ← List.drop_drop,
      List.drop_left' (sized item (List.mem_cons_self _ _)), List.drop_succ_cons]
    exact drop_flatten_of_length (fun other member => sized other (List.mem_cons_of_mem _ member))
      index

/-- `Ignore`, `index` times, skips the first `index` items of a well-formed run of them. -/
theorem repeatRead_ignore_items {child : Element} :
    ∀ {items : List ReadStream}, (∀ item ∈ items, child.Encodes item) → ∀ {index : ℕ},
      index ≤ items.length → ∀ rest,
        repeatRead child.ignore index (items.flatten ++ rest) = some ((items.drop index).flatten ++ rest)
  | _, _, 0, _, _ => rfl
  | item :: items, each, index + 1, within, rest => by
    rw [repeatRead, List.flatten_cons, List.append_assoc,
      child.ignore_encoding (each item (List.mem_cons_self _ _))]
    exact repeatRead_ignore_items (fun other member => each other (List.mem_cons_of_mem _ member))
      (Nat.le_of_succ_le_succ within) rest

/-- The two ways `operator()` skips the items of an array before `array_index` agree on every
well-formed run of items: one jump of `array_index * maybe_fixed_size` when the child has a fixed
size, `Ignore` item by item otherwise. Either way the walk lands at the start of the item it
wants. -/
theorem skipItems_encoding {child : Element} {items : List ReadStream}
    (each : ∀ item ∈ items, child.Encodes item) {index : ℕ} (within : index ≤ items.length)
    (rest : ReadStream) :
    skipItems child index (items.flatten ++ rest) = some ((items.drop index).flatten ++ rest) := by
  unfold skipItems
  split
  · next size fixed =>
    have sized : ∀ item ∈ items, item.length = size := fun item member =>
      (each item member).length_of_fixed fixed
    have early : index * size ≤ items.flatten.length := by
      rw [length_flatten_of_length sized]
      exact Nat.mul_le_mul_right size within
    rw [List.drop_append_of_le_length early, drop_flatten_of_length sized index]
  · exact repeatRead_ignore_items each within rest

/-- The fast path is the plain one: on every well-formed run of items, the jump `operator()`
takes over items of a fixed size lands where `Ignore`, item by item, lands. -/
theorem skipItems_eq_repeatRead {child : Element} {items : List ReadStream}
    (each : ∀ item ∈ items, child.Encodes item) {index : ℕ} (within : index ≤ items.length)
    (rest : ReadStream) :
    skipItems child index (items.flatten ++ rest) = repeatRead child.ignore index (items.flatten ++ rest) := by
  rw [skipItems_encoding each within rest, repeatRead_ignore_items each within rest]

/-- Two floats, skipped past the first: one jump of four bytes, or one `Ignore`. -/
theorem skipItems_eq_repeatRead_on_floats :
    (∀ item ∈ [[5], [6]], (Element.scalar "x" .kFloat32).Encodes item) ∧ 1 ≤ [[5], [6]].length ∧
      skipItems (.scalar "x" .kFloat32) 1 ([[5], [6]].flatten ++ [42]) =
        repeatRead (Element.scalar "x" .kFloat32).ignore 1 ([[5], [6]].flatten ++ [42]) := by
  have each : ∀ item ∈ [[5], [6]], (Element.scalar "x" .kFloat32).Encodes item := by
    rintro _ (_ | ⟨_, _ | ⟨_, ⟨⟩⟩⟩) <;> exact .scalar _ (by decide) (by decide)
  exact ⟨each, by decide, skipItems_eq_repeatRead each (by decide) [42]⟩

end Skips

/-- The field at `position` of an object, with its value. -/
def Fields.valueAt : Fields → List Value → ℕ → Option (Element × Value)
  | .cons _ element _, value :: _, 0 => some (element, value)
  | .cons _ _ rest, _ :: values, position + 1 => rest.valueAt values position
  | _, _, _ => none

mutual

/-- The alternative a union's value holds, through unions within unions; any other element is
its own. -/
def Element.alternative : Element → Value → Option (Element × Value)
  | .union _ children, .union index value => children.alternativeAt index value
  | .union _ _, _ => none
  | element, value => some (element, value)

/-- The alternative `children[index]`, with the value it holds. -/
def Elements.alternativeAt : Elements → ℕ → Value → Option (Element × Value)
  | .nil, _, _ => none
  | .cons element _, 0, value => element.alternative value
  | .cons _ rest, index + 1, value => rest.alternativeAt index value

end

/-- A chain of links read in a decoded value: at each link, through the unions to the
alternative the value holds, then into the field the link names or the item at its index, `0`
past an array's end; where the chain reaches a leaf, the leaf's value as its type reads it. -/
def Element.lookup (logStart : ℤ) : List Link → Element → Value → Option ℚ
  | [], _, _ => none
  | link :: chain, element, value => do
    let (element, value) ← element.alternative value
    match element, link, value with
    | .object _ fields, .element (some position), .object values => do
      let (field, value) ← fields.valueAt values position
      Element.lookup logStart chain field value
    | .array _ child, .index index, .array items
    | .fixedArray _ _ child, .index index, .fixedArray items =>
      match items[index]? with
      | some item => Element.lookup logStart chain child item
      | none => some 0
    | .object .., _, _ | .array .., _, _ | .fixedArray .., _, _ => none
    | leaf, _, value => leaf.leafValue logStart value.write

section Lookup

variable {logStart : ℤ} {chain : List Link}

theorem Element.lookup_object (position : ℕ) (name : String) (fields : Fields) (values : List Value) :
    Element.lookup logStart (.element (some position) :: chain) (.object name fields) (.object values) =
      (fields.valueAt values position).bind fun found => Element.lookup logStart chain found.1 found.2 :=
  rfl

theorem Element.lookup_array (index : ℕ) (name : String) (child : Element) (items : List Value) :
    Element.lookup logStart (.index index :: chain) (.array name child) (.array items) =
      match items[index]? with
      | some item => Element.lookup logStart chain child item
      | none => some 0 :=
  rfl

theorem Element.lookup_fixedArray (index : ℕ) (name : String) (arraySize : ℕ) (child : Element)
    (items : List Value) :
    Element.lookup logStart (.index index :: chain) (.fixedArray name arraySize child) (.fixedArray items) =
      match items[index]? with
      | some item => Element.lookup logStart chain child item
      | none => some 0 :=
  rfl

/-- A leaf's value read from its own entries or from them followed by anything: the leaf reads
at most its first entry. -/
theorem Element.leafValue_cons (logStart : ℤ) (leaf : Element) (entry : ℚ) (rest : ReadStream) :
    leaf.leafValue logStart (entry :: rest) = leaf.leafValue logStart [entry] := by
  cases leaf with
  | scalar _ type => cases type <;> rfl
  | _ => rfl

end Lookup

theorem Built.cons_eq_valid {built : Built} {link : Link} {chain : List Link}
    (valid : built.cons link = .valid chain) :
    ∃ rest, built = .valid rest ∧ chain = link :: rest := by
  cases built with
  | valid rest => exact ⟨rest, rfl, (Built.valid.inj valid).symm⟩
  | invalid | aborted => cases valid

/-- The constructor moves through a union only when it is optional, `null` or one alternative. -/
theorem Element.build_union {name : String} {children : Elements} {next : String}
    {tokenizer : Tokenizer} {chain : List Link}
    (built : (Element.union name children).build next tokenizer = .valid chain) :
    ∃ nullName alternative, children = .cons (.scalar nullName .kNull) (.cons alternative .nil) ∧
      alternative.build next tokenizer = .valid chain := by
  unfold Element.build at built
  split at built
  case h_1 => rename_i shape; nomatch shape
  case h_2 => rename_i shape; nomatch shape
  case h_3 => rename_i shape; nomatch shape
  case h_4 => rename_i shape; nomatch shape
  case h_5 => rename_i shape; nomatch shape
  case h_6 => rename_i shape; exact ⟨_, _, (Element.union.inj shape).2, built⟩
  case h_7 => nomatch built
  case h_8 => nomatch built

/-- At an array's index link the constructor read a number from the token. -/
theorem Element.build_item {next : String} {tokenizer : Tokenizer} {chain : List Link}
    {child : Element} {built : Built}
    (parsed : (match stoull next with
      | none => Built.aborted
      | some index => (child.build tokenizer.next.1 tokenizer.next.2).cons (.index index)) = built)
    (valid : built = .valid chain) :
    ∃ index rest, chain = .index index :: rest ∧
      child.build tokenizer.next.1 tokenizer.next.2 = .valid rest := by
  subst valid
  cases number : stoull next with
  | none => rw [number] at parsed; cases parsed
  | some index =>
    rw [number] at parsed
    obtain ⟨rest, built, rfl⟩ := Built.cons_eq_valid parsed
    exact ⟨index, rest, rfl, built⟩

/-- An item past the first `index` of a run of values, written, begins with that item. -/
theorem writeAll_drop {items : List Value} {index : ℕ} (inside : index < items.length) :
    ((items.map Value.write).drop index).flatten =
      items[index].write ++ ((items.map Value.write).drop (index + 1)).flatten := by
  rw [List.drop_eq_getElem_cons (by simpa using inside), List.flatten_cons, List.getElem_map]

section Refinement

variable {logStart : ℤ}

/-- `operator()` at an array's item, from the data after the array's size: with the index past
the end it reads `0`; otherwise it skips to the item and walks on from there, as the lookup
moves to the item. -/
theorem eval_items {child : Element} {items : List Value} (each : ∀ item ∈ items, child.Typed item)
    {index : ℕ} {chain : List Link}
    (walk : ∀ item ∈ items, ∀ rest, Element.eval logStart chain child (item.write ++ rest) =
      Element.lookup logStart chain child item)
    (rest : ReadStream) :
    (if items.length ≤ index then some 0
      else skipItems child index (Value.writeAll items ++ rest) >>= Element.eval logStart chain child) =
      match items[index]? with
      | some item => Element.lookup logStart chain child item
      | none => some 0 := by
  split
  · next past => rw [List.getElem?_eq_none past]
  · next inside =>
    have inside : index < items.length := Nat.lt_of_not_le inside
    have encoded : ∀ item ∈ items.map Value.write, child.Encodes item := by
      intro item member
      obtain ⟨value, typed, rfl⟩ := List.mem_map.mp member
      exact child.encodes_write (each value typed)
    rw [Value.writeAll_eq, skipItems_encoding encoded (by simpa using inside.le), writeAll_drop inside,
      List.getElem?_eq_getElem inside, Option.bind_eq_bind, Option.some_bind, List.append_assoc]
    exact walk _ (List.getElem_mem inside) _

mutual

/-- For every chain the constructor builds for an element, `operator()`'s walk over a value of
the element, followed by any data, returns what the lookup of that chain in the value
returns. -/
theorem Element.eval_write : ∀ (element : Element) {value : Value}, element.Typed value →
    ∀ {next : String} {tokenizer : Tokenizer} {chain : List Link},
    element.build next tokenizer = .valid chain → ∀ rest,
      element.eval logStart chain (value.write ++ rest) = element.lookup logStart chain value
  | .scalar name type, _, .scalar value _ _, _, _, _, built, rest => by
    cases built
    exact Element.leafValue_cons logStart (.scalar name type) value rest
  | .enum name, _, .enum value, _, _, _, built, rest => by
    cases built
    exact Element.leafValue_cons logStart (.enum name) value rest
  | .scalar _ _, _, .final, _, _, _, built, _ | .scalar _ _, _, .null, _, _, _, built, _ => by
    cases built
    rfl
  | .object _ fields, _, .object typed, _, _, _, built, rest => by
    obtain ⟨offset, field, value, found, after, chain, rfl, sought, walk⟩ :=
      fields.eval_write typed built
    rw [Element.eval_object, Element.lookup_object, Value.write, sought, Nat.zero_add, found]
    simp only [Option.bind_eq_bind, Option.some_bind, List.append_assoc]
    exact walk (after ++ rest)
  | .array _ child, _, .array items each, _, _, _, built, rest => by
    obtain ⟨index, chain, rfl, childBuilt⟩ :=
      Element.build_item (Element.build_array _ _ _ _).symm built
    rw [Element.eval_array, Element.lookup_array, Value.write, List.cons_append, readCount_natCast]
    exact eval_items each (fun item member => child.eval_write (each item member) childBuilt) rest
  | .fixedArray _ _ child, _, .fixedArray items counted each, _, _, _, built, rest => by
    obtain ⟨index, chain, rfl, childBuilt⟩ :=
      Element.build_item (Element.build_fixedArray _ _ _ _ _).symm built
    rw [Element.eval_fixedArray, Element.lookup_fixedArray, Value.write, ← counted]
    exact eval_items each (fun item member => child.eval_write (each item member) childBuilt) rest
  | .map _ _, _, _, _, _, _, built, _ => nomatch built
  | .union _ .nil, _, _, _, _, _, built, _
  | .union _ (.cons _ .nil), _, _, _, _, _, built, _ => by
    obtain ⟨_, _, shape, -⟩ := Element.build_union built
    cases shape
  | .union _ (.cons _ (.cons alternative _)), _, .union typed, _, _, chain, built, rest => by
    obtain ⟨nullName, other, shape, built⟩ := Element.build_union built
    obtain ⟨rfl, rfl, rfl⟩ : _ ∧ alternative = other ∧ _ :=
      ⟨(Elements.cons.inj shape).1, Elements.cons.inj (Elements.cons.inj shape).2⟩
    cases chain with
    | nil => rfl
    | cons link chain =>
      cases typed with
      | here null => cases null <;> rfl
      | there typed =>
        cases typed with
        | here typed =>
          show Element.eval logStart (link :: chain) alternative (_ ++ rest) =
            Element.lookup logStart (link :: chain) alternative _
          exact alternative.eval_write typed built rest
        | there typed => nomatch typed

/-- The constructor's search of an object's fields, and the field loop of `operator()` over
their values: the link names a field no earlier than `position`, the loop skips the values
before it and stops at its value, and the walk goes on from there as the lookup does. -/
theorem Fields.eval_write : ∀ (fields : Fields) {values : List Value}, fields.Typed values →
    ∀ {position : ℕ} {next : String} {tokenizer : Tokenizer} {chain : List Link},
    fields.build position next tokenizer = .valid chain →
    ∃ offset field value, fields.valueAt values offset = some (field, value) ∧
      ∃ after rest, chain = .element (some (position + offset)) :: rest ∧
        (∀ tail, fields.seek (some (position + offset)) position (Value.writeAll values ++ tail) =
          some (some field, value.write ++ after ++ tail)) ∧
        ∀ tail, field.eval logStart rest (value.write ++ tail) = field.lookup logStart rest value
  | .nil, _, .nil, _, _, _, _, built => nomatch built
  | .cons name element more, _ :: values, .cons first others, position, next, tokenizer, chain,
      built => by
    by_cases same : name = next
    · rw [Fields.build, if_pos same] at built
      obtain ⟨rest, elementBuilt, rfl⟩ := Built.cons_eq_valid built
      refine ⟨0, element, _, rfl, Value.writeAll values, rest, rfl, fun tail => ?_,
        element.eval_write first elementBuilt⟩
      rw [Fields.seek, Nat.add_zero, if_pos rfl, Value.writeAll]
    · rw [Fields.build, if_neg same] at built
      obtain ⟨offset, field, value, found, after, rest, rfl, sought, walk⟩ :=
        more.eval_write others built
      refine ⟨offset + 1, field, value, found, after, rest, by rw [Nat.add_right_comm]; rfl,
        fun tail => ?_, walk⟩
      have apart : some (position + (offset + 1)) ≠ some position := by simp
      rw [Fields.seek, if_neg apart, Value.writeAll, List.append_assoc,
        element.ignore_encoding (element.encodes_write first), Option.bind_eq_bind, Option.some_bind,
        ← Nat.add_assoc, Nat.add_right_comm]
      exact sought tail

end

end Refinement

mutual

/-- The leaves the tree view shows for a decoded value, in its order: a scalar or an enum, an
object without fields, the leaves of each field and of each item in turn, and those of the
alternative a union holds; a map shows none. -/
def Element.leaves : Element → Value → List (Element × Value)
  | leaf@(.scalar _ _), value | leaf@(.enum _), value => [(leaf, value)]
  | object@(.object _ .nil), value => [(object, value)]
  | .object _ fields, .object values => fields.leaves values
  | .array _ child, .array items | .fixedArray _ _ child, .fixedArray items =>
    items.flatMap child.leaves
  | .union _ children, .union index value => children.leavesAt index value
  | _, _ => []

/-- The leaves of each field's value in turn. -/
def Fields.leaves : Fields → List Value → List (Element × Value)
  | .cons _ element rest, value :: values => element.leaves value ++ rest.leaves values
  | _, _ => []

/-- The leaves of the alternative `children[index]`. -/
def Elements.leavesAt : Elements → ℕ → Value → List (Element × Value)
  | .nil, _, _ => []
  | .cons element _, 0, value => element.leaves value
  | .cons _ rest, index + 1, value => rest.leavesAt index value

end

section Tree

/-- A row of the tree shows a leaf of the decoded value: it is that leaf, holding a value of its
type, and the data it reads and drags from starts with that value. -/
def Row.Shows (row : Row) (leaf : Element × Value) : Prop :=
  row.leaf = leaf.1 ∧ leaf.1.Typed leaf.2 ∧ ∃ after, row.data = leaf.2.write ++ after

/-- `do_array` over items written one after another: each item's rows in turn, and the data
after the last item. -/
theorem doArray_write {visitItem : ℕ → ReadStream → Option (List Row × ReadStream)}
    {leavesOf : Value → List (Element × Value)} :
    ∀ {items : List Value}, (∀ item ∈ items, ∀ index rest, ∃ rows,
      visitItem index (item.write ++ rest) = some (rows, rest) ∧
        List.Forall₂ Row.Shows rows (leavesOf item)) →
    ∀ index rest, ∃ rows, doArray visitItem index items.length (Value.writeAll items ++ rest) =
      some (rows, rest) ∧ List.Forall₂ Row.Shows rows (items.flatMap leavesOf)
  | [], _, _, _ => ⟨[], rfl, .nil⟩
  | item :: items, each, index, rest => by
    obtain ⟨rows, visited, shows⟩ :=
      each item (List.mem_cons_self _ _) index (Value.writeAll items ++ rest)
    obtain ⟨more, walked, moreShows⟩ :=
      doArray_write (fun other member => each other (List.mem_cons_of_mem _ member)) (index + 1) rest
    refine ⟨rows ++ more, ?_, List.rel_append shows moreShows⟩
    rw [List.length_cons, Value.writeAll, List.append_assoc, doArray, visited]
    simp only [Option.bind_eq_bind, Option.some_bind, walked, Option.pure_def]

mutual

/-- With every node open, `VisitElement` over a value of an element reads exactly the value and
offers one row per leaf of the decoded value, in order, each row that leaf with the data from
the leaf's own value on. -/
theorem Element.visit_write : ∀ (element : Element) {value : Value}, element.Typed value →
    ∀ (parent : Parent) (rest : ReadStream), ∃ rows,
      element.visit parent (value.write ++ rest) = some (rows, rest) ∧
        List.Forall₂ Row.Shows rows (element.leaves value)
  | .scalar name type, _, .scalar value notFinal notNull, parent, rest => by
    refine ⟨[⟨parent.renderToken (.scalar name type), .scalar name type, value :: rest⟩], ?_,
      .cons ⟨rfl, .scalar value notFinal notNull, rest, rfl⟩ .nil⟩
    simp only [Element.visit, Value.write, List.singleton_append,
      Scalar.skip_entry notFinal notNull, Option.bind_eq_bind, Option.some_bind, Option.pure_def]
  | .scalar _ _, _, .final, _, rest => ⟨_, rfl, .cons ⟨rfl, .final, rest, rfl⟩ .nil⟩
  | .scalar _ _, _, .null, _, rest => ⟨_, rfl, .cons ⟨rfl, .null, rest, rfl⟩ .nil⟩
  | .enum _, _, .enum _, _, rest => ⟨_, rfl, .cons ⟨rfl, .enum _, rest, rfl⟩ .nil⟩
  | .object _ .nil, _, .object .nil, _, rest => ⟨_, rfl, .cons ⟨rfl, .object .nil, rest, rfl⟩ .nil⟩
  | .object objectName (.cons name element more), _, .object typed, parent, rest => by
    obtain ⟨rows, visited, shows⟩ := Fields.visit_write (.cons name element more) typed
      (.field parent (.object objectName (.cons name element more))) rest
    refine ⟨rows, ?_, shows⟩
    simp only [Element.visit, Value.write, visited, Option.bind_eq_bind, Option.some_bind,
      Option.pure_def, Fields.leafRows, List.nil_append]
  | .array _ child, _, .array items each, parent, rest => by
    obtain ⟨rows, walked, shows⟩ := @doArray_write _ child.leaves _
      (fun item member index rest => child.visit_write (each item member) _ rest) 0 rest
    refine ⟨rows, ?_, shows⟩
    rw [Element.visit, Value.write, List.cons_append, readCount_natCast]
    exact walked
  | .fixedArray _ _ child, _, .fixedArray items counted each, parent, rest => by
    obtain ⟨rows, walked, shows⟩ := @doArray_write _ child.leaves _
      (fun item member index rest => child.visit_write (each item member) _ rest) 0 rest
    refine ⟨rows, ?_, shows⟩
    rw [Element.visit, Value.write, ← counted]
    exact walked
  | .map _ child, _, .map entries each, _, rest => by
    refine ⟨[], ?_, .nil⟩
    rw [Element.visit, (Element.map _ child).ignore_encoding ((Element.map _ child).encodes_write
      (.map entries each)) rest]
    rfl
  | .union _ children, _, .union typed, parent, rest => by
    obtain ⟨rows, visited, shows⟩ := children.visitAt_write typed parent rest
    refine ⟨rows, ?_, shows⟩
    rw [Element.visit, Value.write, List.cons_append, readCount_natCast]
    exact visited

/-- The fields' values in turn, under the object's `Parent`. -/
theorem Fields.visit_write : ∀ (fields : Fields) {values : List Value}, fields.Typed values →
    ∀ (parent : Parent) (rest : ReadStream), ∃ rows,
      fields.visit parent (Value.writeAll values ++ rest) = some (rows, rest) ∧
        List.Forall₂ Row.Shows rows (fields.leaves values)
  | .nil, _, .nil, _, rest => ⟨[], rfl, .nil⟩
  | .cons _ element more, _, .cons first others, parent, rest => by
    obtain ⟨rows, visited, shows⟩ := element.visit_write first parent (Value.writeAll _ ++ rest)
    obtain ⟨moreRows, walked, moreShows⟩ := more.visit_write others parent rest
    refine ⟨rows ++ moreRows, ?_, List.rel_append shows moreShows⟩
    rw [Value.writeAll, List.append_assoc, Fields.visit, visited]
    simp only [Option.bind_eq_bind, Option.some_bind, walked, Option.pure_def]

/-- The alternative's value, under the union's `Parent`. -/
theorem Elements.visitAt_write : ∀ (children : Elements) {index : ℕ} {value : Value},
    Elements.TypedAt children index value → ∀ (parent : Parent) (rest : ReadStream), ∃ rows,
      children.visitAt index parent (value.write ++ rest) = some (rows, rest) ∧
        List.Forall₂ Row.Shows rows (children.leavesAt index value)
  | .cons element _, _, _, .here typed, parent, rest => element.visit_write typed parent rest
  | .cons _ others, _, _, .there typed, parent, rest => others.visitAt_write typed parent rest

end

/-- A leaf with a value reads its value from the first entry of the data. -/
theorem Element.leafValue_write_append {leaf : Element} {value : Value} (typed : leaf.Typed value)
    (valued : leaf.Valued) (logStart : ℤ) (after : ReadStream) :
    leaf.leafValue logStart (value.write ++ after) = leaf.leafValue logStart value.write := by
  cases typed with
  | scalar value => exact Element.leafValue_cons logStart _ value after
  | enum code => exact Element.leafValue_cons logStart _ code after
  | final => exact absurd rfl valued.1
  | null => exact absurd rfl valued.2
  | _ => exact valued.elim

end Tree

/-- A value of the bench record: floats 5 and 6, one map entry, and the varint 9. -/
def benchValue : Value :=
  .object [.array [.scalar 5, .scalar 6], .map [(7, .scalar 1)], .union 1 (.scalar 9)]

theorem benchValue_typed : benchSchema.Typed benchValue := by
  refine .object (.cons (.array _ ?_) (.cons (.map _ ?_)
    (.cons (.union (.there (.here (.scalar 9 (by decide) (by decide))))) .nil)))
  · rintro _ (_ | ⟨_, _ | ⟨_, ⟨⟩⟩⟩) <;> exact .scalar _ (by decide) (by decide)
  · rintro _ (_ | ⟨_, ⟨⟩⟩)
    exact .scalar _ (by decide) (by decide)

/- The bench record's tree: a row for each float and for the varint, none for the map. -/
example : (benchSchema.leaves benchValue).map Prod.snd = [.scalar 5, .scalar 6, .scalar 9] ∧
    ∃ rows, benchSchema.visit .top (benchValue.write ++ [42]) = some (rows, [42]) ∧
      List.Forall₂ Row.Shows rows (benchSchema.leaves benchValue) :=
  ⟨rfl, Element.visit_write _ benchValue_typed .top [42]⟩

/-- The bench record without its map, so that every name is one the getters can spell. -/
def plotSchema : Element :=
  .object "sample" (.cons "a" (.array "a" (.scalar "x" .kFloat32))
    (.cons "u" (.union "u" (.cons (.scalar "n" .kNull) (.cons (.scalar "u" .kVarint) .nil))) .nil))

/-- Floats 5 and 6, and the varint 9. -/
def plotValue : Value := .object [.array [.scalar 5, .scalar 6], .union 1 (.scalar 9)]

theorem plotValue_typed : plotSchema.Typed plotValue := by
  refine .object (.cons (.array _ ?_) (.cons (.union (.there (.here
    (.scalar 9 (by decide) (by decide))))) .nil))
  rintro _ (_ | ⟨_, _ | ⟨_, ⟨⟩⟩⟩) <;> exact .scalar _ (by decide) (by decide)

theorem plotSchema_wellNamed : plotSchema.WellNamed :=
  .object (by decide) (.cons (by decide) (by decide) rfl (.array (by decide) (.scalar (by decide)))
    (.cons (by decide) (by decide) rfl (.optional (by decide) rfl (.scalar (by decide))) .nil))

end Mjmech.Tplot
