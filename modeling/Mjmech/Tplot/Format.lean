import Mjmech.Tplot.Schema

/-! The telemetry format an item's data follows, and the tree view's walk over it. A
well-formed value of an element (`Element.Encodes`) is written, in the read stream's entries,
as mjlib's format lays it out: a scalar as one primitive, but `kFinal` and `kNull` as nothing;
an enum as its code; an object as its fields one after another; an array or a map as its size,
then its items, each of a map's a string key and a value; a fixed array as its `array_size`
items; a union as the index of its alternative, then the alternative's value. `Ignore` skips
exactly one such value (`Element.ignore_encoding`), and so does `VisitElement` under every choice
the UI makes of open and collapsed nodes (`visitElement_consumes_encoding`): whatever is
collapsed, the next field and the next record are read from their own data. -/
namespace Mjmech.Tplot

mutual

/-- A well-formed value of the element, as the entries its encoding takes. -/
inductive Element.Encodes : Element → ReadStream → Prop
  | scalar {name : String} {type : Scalar} (value : ℚ) : type ≠ .kFinal → type ≠ .kNull →
      Element.Encodes (.scalar name type) [value]
  | final {name : String} : Element.Encodes (.scalar name .kFinal) []
  | null {name : String} : Element.Encodes (.scalar name .kNull) []
  | enum {name : String} (code : ℚ) : Element.Encodes (.enum name) [code]
  | object {name : String} {fields : Fields} {encoding : ReadStream} :
      Fields.Encodes fields encoding → Element.Encodes (.object name fields) encoding
  | array {name : String} {child : Element} (items : List ReadStream) :
      (∀ item ∈ items, Element.Encodes child item) →
        Element.Encodes (.array name child) ((items.length : ℚ) :: items.flatten)
  | fixedArray {name : String} {arraySize : ℕ} {child : Element} (items : List ReadStream) :
      items.length = arraySize → (∀ item ∈ items, Element.Encodes child item) →
        Element.Encodes (.fixedArray name arraySize child) items.flatten
  | map {name : String} {child : Element} (entries : List (ℚ × ReadStream)) :
      (∀ entry ∈ entries, Element.Encodes child entry.2) →
        Element.Encodes (.map name child)
          ((entries.length : ℚ) :: (entries.map fun entry => entry.1 :: entry.2).flatten)
  | union {name : String} {children : Elements} {index : ℕ} {encoding : ReadStream} :
      Elements.EncodesAt children index encoding →
        Element.Encodes (.union name children) ((index : ℚ) :: encoding)

/-- One value of each field of an object, in order. -/
inductive Fields.Encodes : Fields → ReadStream → Prop
  | nil : Fields.Encodes .nil []
  | cons {name : String} {element : Element} {rest : Fields} {first more : ReadStream} :
      Element.Encodes element first → Fields.Encodes rest more →
        Fields.Encodes (.cons name element rest) (first ++ more)

/-- A value of the alternative `children[index]`. -/
inductive Elements.EncodesAt : Elements → ℕ → ReadStream → Prop
  | here {element : Element} {rest : Elements} {encoding : ReadStream} :
      Element.Encodes element encoding → Elements.EncodesAt (.cons element rest) 0 encoding
  | there {element : Element} {rest : Elements} {index : ℕ} {encoding : ReadStream} :
      Elements.EncodesAt rest index encoding →
        Elements.EncodesAt (.cons element rest) (index + 1) encoding

end

/-- A size or an index as the format writes it reads back as that number. -/
theorem readCount_natCast (n : ℕ) (rest : ReadStream) :
    ReadStream.readCount ((n : ℚ) :: rest) = some (n, rest) :=
  rfl

theorem Scalar.skip_entry {type : Scalar} (notFinal : type ≠ .kFinal) (notNull : type ≠ .kNull)
    (value : ℚ) (rest : ReadStream) : type.skip (value :: rest) = some rest := by
  cases type <;> first | rfl | contradiction

/-- A read that skips exactly each of `items`, repeated as many times, skips all of them. -/
theorem repeatRead_flatten {read : ReadStream → Option ReadStream} :
    ∀ {items : List ReadStream}, (∀ item ∈ items, ∀ rest, read (item ++ rest) = some rest) →
      ∀ rest, repeatRead read items.length (items.flatten ++ rest) = some rest
  | [], _, _ => rfl
  | item :: items, each, rest => by
    rw [List.length_cons, List.flatten_cons, List.append_assoc, repeatRead,
      each item (List.mem_cons_self _ _)]
    exact repeatRead_flatten (fun other member => each other (List.mem_cons_of_mem _ member)) rest

mutual

/-- `Ignore` skips exactly one value of the element. -/
theorem Element.ignore_encoding : ∀ (element : Element) {encoding : ReadStream},
    element.Encodes encoding → ∀ rest, element.ignore (encoding ++ rest) = some rest
  | .scalar _ _, _, .scalar value notFinal notNull, rest =>
    Scalar.skip_entry notFinal notNull value rest
  | .scalar _ _, _, .final, _ | .scalar _ _, _, .null, _ | .enum _, _, .enum _, _ => rfl
  | .object _ fields, _, .object encodes, rest => fields.ignore_encoding encodes rest
  | .array _ child, _, .array items each, rest => by
    simp only [Element.ignore, List.cons_append, readCount_natCast, Option.bind_eq_bind,
      Option.some_bind]
    exact repeatRead_flatten (fun item member => child.ignore_encoding (each item member)) rest
  | .fixedArray _ _ child, _, .fixedArray items counted each, rest => by
    rw [Element.ignore, ← counted]
    exact repeatRead_flatten (fun item member => child.ignore_encoding (each item member)) rest
  | .map _ child, _, .map entries each, rest => by
    have skipped := @repeatRead_flatten (fun s => s.read.map Prod.snd >>= child.ignore)
      (entries.map fun entry => entry.1 :: entry.2) (fun item member => by
        obtain ⟨entry, inside, rfl⟩ := List.mem_map.mp member
        exact child.ignore_encoding (each entry inside)) rest
    rw [List.length_map] at skipped
    simp only [Element.ignore, List.cons_append, readCount_natCast, Option.bind_eq_bind,
      Option.some_bind]
    exact skipped
  | .union _ children, _, .union alternative, rest => by
    simp only [Element.ignore, List.cons_append, readCount_natCast, Option.bind_eq_bind,
      Option.some_bind]
    exact children.ignoreAt_encoding alternative rest

/-- Skipping the fields skips exactly one value of each. -/
theorem Fields.ignore_encoding : ∀ (fields : Fields) {encoding : ReadStream},
    fields.Encodes encoding → ∀ rest, fields.ignore (encoding ++ rest) = some rest
  | .nil, _, .nil, _ => rfl
  | .cons _ element more, _, .cons first others, rest => by
    rw [List.append_assoc, Fields.ignore, element.ignore_encoding first]
    exact more.ignore_encoding others rest

/-- Skipping the alternative skips exactly one value of it. -/
theorem Elements.ignoreAt_encoding : ∀ (children : Elements) {index : ℕ} {encoding : ReadStream},
    Elements.EncodesAt children index encoding → ∀ rest,
      children.ignoreAt index (encoding ++ rest) = some rest
  | .cons element _, _, _, .here value, rest => element.ignore_encoding value rest
  | .cons _ others, _, _, .there other, rest => others.ignoreAt_encoding other rest

end

/-- Take any element, a well-formed value of it at the stream's position followed by any data,
and any choice of the nodes the UI opens. `VisitElement` reads exactly that value, as `Ignore`
does, and leaves what follows it, the next field or the next record, to be read from its own
data. -/
theorem visitElement_consumes_encoding {element : Element} {encoding : ReadStream}
    (encodes : element.Encodes encoding) (rest : ReadStream) (expanded : List ℕ → Bool)
    (node : List ℕ) (parent : Parent) :
    element.ignore (encoding ++ rest) = some rest ∧
      ∃ rows, element.visitElement expanded node parent (encoding ++ rest) = some (rows, rest) := by
  have skipped := element.ignore_encoding encodes rest
  have walked := element.visitElement_skips expanded node parent (encoding ++ rest)
  rw [skipped] at walked
  obtain ⟨⟨rows, after⟩, visited, rfl⟩ := Option.map_eq_some'.mp walked
  exact ⟨skipped, rows, visited⟩

/-- A record of an array of floats, a map of booleans and an optional varint. -/
def benchSchema : Element :=
  .object "sample" (.cons "a" (.array "a" (.scalar "x" .kFloat32))
    (.cons "m" (.map "m" (.scalar "v" .kBoolean))
      (.cons "u" (.union "u" (.cons (.scalar "n" .kNull) (.cons (.scalar "u" .kVarint) .nil)))
        .nil)))

/-- Two floats, one map entry and the varint, then the next record's data, with only the array
open. -/
theorem visitElement_consumes_encoding_on_bench :
    benchSchema.Encodes [2, 5, 6, 1, 7, 1, 1, 9] ∧
      benchSchema.ignore ([2, 5, 6, 1, 7, 1, 1, 9] ++ [42]) = some [42] ∧
      ∃ rows, benchSchema.visitElement (fun node => node = [0]) [] .top
        ([2, 5, 6, 1, 7, 1, 1, 9] ++ [42]) = some (rows, [42]) := by
  have encodes : benchSchema.Encodes [2, 5, 6, 1, 7, 1, 1, 9] := by
    refine .object (.cons (.array [[5], [6]] ?_) (.cons (.map [(7, [1])] ?_)
      (.cons (.union (.there (.here (.scalar 9 (by decide) (by decide))))) .nil)))
    · rintro _ (_ | ⟨_, _ | ⟨_, ⟨⟩⟩⟩) <;> exact .scalar _ (by decide) (by decide)
    · rintro _ (_ | ⟨_, ⟨⟩⟩)
      exact .scalar _ (by decide) (by decide)
  exact ⟨encodes, visitElement_consumes_encoding encodes [42] _ [] .top⟩

end Mjmech.Tplot
