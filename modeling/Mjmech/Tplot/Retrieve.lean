import Mjmech.Tplot.Schema
import Mjmech.Binary.Value
import Mathlib.Tactic.NormNum.Inv

/-! `PlotRetrieve` and `ValueRetrieve` in `tplot2.cc`: the plot's getters, built from the tokens
the tree view drags. `FindRoot` takes the record from the token's first part, and
`ValueRetrieve`'s constructor follows the rest down the record's schema into a chain of links,
which `operator()` walks through an item's data (`Element.walk`) and returns what it finds there
as a `float` (`ValueRetrieve.call`, from `Element.leafFloat`); `ValueRetrieve.apply` is the same
walk with the exact value. The tokenizer is mjlib's `Tokenizer` on `.`. For every leaf below a
record's root, the walk of the getter built from the leaf's drag token ends at the leaf the tree
view read, in every item that has the leaf (`drag_token_walks_leaf`), so its y value is that
leaf's value (`drag_token_retrieves_leaf`). A record whose root is a leaf drags its bare name, and the getter
built from that plots the item's time instead (`bare_token_plots_time`,
`scalar_root_plots_time`). -/
namespace Mjmech.Tplot

/-- `mjlib::base::Tokenizer` on `.`: the text not yet read. -/
structure Tokenizer where
  rest : List Char

/-- The tokenizer at the start of `text`. -/
def Tokenizer.of (text : String) : Tokenizer := ⟨text.toList⟩

/-- `next()`: the text up to the next `.` or the end; the position moves past the `.`. -/
def Tokenizer.next (tokenizer : Tokenizer) : String × Tokenizer :=
  match tokenizer.rest.span (· != '.') with
  | (token, []) => (⟨token⟩, ⟨[]⟩)
  | (token, _ :: rest) => (⟨token⟩, ⟨rest⟩)

/-- `remaining()`. -/
def Tokenizer.remaining (tokenizer : Tokenizer) : String := ⟨tokenizer.rest⟩

/-- `std::stoull`: the number the token's leading digits spell, or `none` for the
`std::invalid_argument` it throws on a token without them. The leading blanks and sign it also
takes, and its `std::out_of_range`, are left out. -/
def stoull (token : String) : Option ℕ :=
  match token.toList.takeWhile Char.isDigit with
  | [] => none
  | digits => some (digits.foldl (fun value digit => value * 10 + (digit.toNat - '0'.toNat)) 0)

/-- A link of `ValueRetrieve`'s chain, a `std::variant<const Element*, uint64_t>`: the element of
an object's field, by its place among the fields (`none` for the `nullptr` pushed at a leaf), or
an array index. -/
inductive Link
  | element (field : Option ℕ)
  | index (index : ℕ)

/-- How the loop of `ValueRetrieve`'s constructor ends: with `valid_` true and the chain, with
`valid_` false, or by throwing or failing an assertion. -/
inductive Built
  | valid (chain : List Link)
  | invalid
  | aborted

/-- A link pushed before the rest of the loop. -/
def Built.cons (link : Link) : Built → Built
  | .valid chain => .valid (link :: chain)
  | other => other

mutual

/-- The loop of `ValueRetrieve`'s constructor at `element`, with `next` the token last read: a
leaf ends it; an object moves to the first field named `next`; an array moves to its item type
at the index `next` spells; an optional union moves to its alternative without reading a
token. Any other union, and a map, fail an assertion. -/
def Element.build : Element → String → Tokenizer → Built
  | .scalar _ _, _, _ | .enum _, _, _ => .valid [.element none]
  | .object _ fields, next, tokenizer => fields.build 0 next tokenizer
  | .array _ child, next, tokenizer | .fixedArray _ _ child, next, tokenizer =>
    match stoull next with
    | none => .aborted
    | some index =>
      let (next, tokenizer) := tokenizer.next
      (child.build next tokenizer).cons (.index index)
  | .union _ (.cons (.scalar _ .kNull) (.cons element .nil)), next, tokenizer =>
    element.build next tokenizer
  | .union _ _, _, _ | .map _ _, _, _ => .aborted

/-- The search of an object's fields for the one named `next`; `position` counts the fields
passed. -/
def Fields.build : Fields → ℕ → String → Tokenizer → Built
  | .nil, _, _, _ => .invalid
  | .cons name element rest, position, next, tokenizer =>
    if name = next then
      let (next, tokenizer) := tokenizer.next
      (element.build next tokenizer).cons (.element (some position))
    else rest.build (position + 1) next tokenizer

end

/-- The constructor's loop at an array moves to its item type at the index `next` spells. -/
theorem Element.build_array (name : String) (child : Element) (next : String) (tokenizer : Tokenizer) :
    (Element.array name child).build next tokenizer = match stoull next with
      | none => .aborted
      | some index => (child.build tokenizer.next.1 tokenizer.next.2).cons (.index index) :=
  rfl

/-- The same at a fixed array. -/
theorem Element.build_fixedArray (name : String) (arraySize : ℕ) (child : Element) (next : String)
    (tokenizer : Tokenizer) :
    (Element.fixedArray name arraySize child).build next tokenizer = match stoull next with
      | none => .aborted
      | some index => (child.build tokenizer.next.1 tokenizer.next.2).cons (.index index) :=
  rfl

/-- `ValueRetrieve`: `is_timestamp_`, `valid_` and `chain_`. -/
structure ValueRetrieve where
  isTimestamp : Bool
  valid : Bool
  chain : List Link

/-- The constructor, from the record's root (`none` is the `nullptr` of an invalid root) and the
token's rest after the record: the empty rest is the item's time. `none`: the constructor throws
or fails an assertion. -/
def ValueRetrieve.make (root : Option Element) (name : String) : Option ValueRetrieve :=
  if name = "" then some ⟨true, true, []⟩
  else do
    let root ← root
    let (next, tokenizer) := (Tokenizer.of name).next
    match root.build next tokenizer with
    | .valid chain => some ⟨false, true, chain⟩
    | .invalid => some ⟨false, false, []⟩
    | .aborted => none

mutual

/-- The `continue`s of `operator()` at unions: read the index and move to that alternative, until
an element that is not a union. -/
def Element.throughUnions : Element → ReadStream → Option (Element × ReadStream)
  | .union _ children, s => do
    let (index, s) ← s.readCount
    children.throughUnionsAt index s
  | element, s => some (element, s)

/-- Move to the alternative `children[index]`. -/
def Elements.throughUnionsAt : Elements → ℕ → ReadStream → Option (Element × ReadStream)
  | .nil, _, _ => none
  | .cons element _, 0, s => element.throughUnions s
  | .cons _ rest, index + 1, s => rest.throughUnionsAt index s

end

/-- The field loop of `operator()` at an object: skip each field up to the one whose element the
link names (`position` counts the fields passed) and move to it; past the last field the walk
stays at the object, after all its fields. -/
def Fields.seek : Fields → Option ℕ → ℕ → ReadStream → Option (Option Element × ReadStream)
  | .nil, _, _, s => some (none, s)
  | .cons _ element rest, desired, position, s =>
    if desired = some position then some (some element, s)
    else element.ignore s >>= rest.seek desired (position + 1)

/-- Skip the first `index` items of an array of `child`: at once when the child has a fixed size,
one `Ignore` at a time otherwise. -/
def skipItems (child : Element) (index : ℕ) (s : ReadStream) : Option ReadStream :=
  match child.maybeFixedSize with
  | some size => some (s.drop (index * size))
  | none => repeatRead child.ignore index s

/-- What `operator()` returns where the chain stops, from the item's data there on: a leaf's value,
or `0` at a map. `none` is NaN (at `kFinal` and `kNull`) or data that ends early. -/
def Element.leafValue (logStart : ℤ) : Element → ReadStream → Option ℚ
  | .scalar _ .kBoolean, s => s.head?.map fun value => if value ≠ 0 then 1 else 0
  | .scalar _ .kFixedInt, s | .scalar _ .kVarint, s | .scalar _ .kFixedUInt, s
  | .scalar _ .kVaruint, s | .scalar _ .kFloat32, s | .scalar _ .kFloat64, s => s.head?
  | .scalar _ .kBytes, _ | .scalar _ .kString, _ => some 0
  | .scalar _ .kDuration, s => s.head?.map (· / 1000000)
  | .scalar _ .kTimestamp, s => s.head?.map fun value => (value - logStart) / 1000000
  | .enum _, s => s.head?
  | .map _ _, _ => some 0
  | _, _ => none

/-- `operator()` past `is_timestamp_`: the walk down the chain from `element` through the item's
data, with `leaf` what it returns where the chain stops and `zero` its `0` for an array index
past the end. `none`: a chain that runs out (`AssertNotReached`), a `std::get` of the other kind
of link, or data that ends early. -/
def Element.walk {α : Type} (leaf : Element → ReadStream → Option α) (zero : α) :
    List Link → Element → ReadStream → Option α
  | [], _, _ => none
  | link :: chain, element, s => do
    let (element, s) ← element.throughUnions s
    match element, link with
    | .object name fields, .element desired => do
      let (found, s) ← fields.seek desired 0 s
      match found with
      | some child => Element.walk leaf zero chain child s
      | none => Element.walk leaf zero chain (.object name fields) s
    | .array _ child, .index index => do
      let (size, s) ← s.readCount
      if size ≤ index then some zero
      else skipItems child index s >>= Element.walk leaf zero chain child
    | .fixedArray _ arraySize child, .index index =>
      if arraySize ≤ index then some zero
      else skipItems child index s >>= Element.walk leaf zero chain child
    | .object .., .index _ | .array .., .element _ | .fixedArray .., .element _ => none
    | leaf', _ => leaf leaf' s

/-- The walk of `operator()` with the exact value at the leaf; `none` also for NaN. -/
def Element.eval (logStart : ℤ) : List Link → Element → ReadStream → Option ℚ :=
  Element.walk (Element.leafValue logStart) 0

/-- What `operator()` returns where the chain stops, as the `float` it returns: NaN at `kFinal`
and `kNull`; the integer, the `double` read, or the enum's code converted to `float`; a duration
or a timestamp's offset from the log's start in seconds, a `double`, converted to `float`; `0`
for text and maps. `none` is data that ends early. The stream holds finite values. -/
def Element.leafFloat (logStart : ℤ) : Element → ReadStream → Option (Flt .float32)
  | .scalar _ .kFinal, _ | .scalar _ .kNull, _ => some Flt.nan
  | .scalar _ .kBoolean, s => s.head?.map fun value => Flt.ofRat (if value ≠ 0 then 1 else 0)
  | .scalar _ .kFixedInt, s | .scalar _ .kVarint, s | .scalar _ .kFixedUInt, s
  | .scalar _ .kVaruint, s | .scalar _ .kFloat32, s | .scalar _ .kFloat64, s => s.head?.map Flt.ofRat
  | .scalar _ .kBytes, _ | .scalar _ .kString, _ => some (Flt.ofRat 0)
  | .scalar _ .kDuration, s => s.head?.map fun value => Flt.narrow (convertDurationToSeconds value)
  | .scalar _ .kTimestamp, s =>
    s.head?.map fun value => Flt.narrow (convertDurationToSeconds (value - logStart))
  | .enum _, s => s.head?.map Flt.ofRat
  | .map _ _, _ => some (Flt.ofRat 0)
  | _, _ => none

/-- `operator()` goes on from wherever the `continue`s at unions leave it. -/
theorem Element.walk_cons_congr {α : Type} {element other : Element} {s t : ReadStream}
    (same : element.throughUnions s = other.throughUnions t) (leaf : Element → ReadStream → Option α)
    (zero : α) (link : Link) (chain : List Link) :
    Element.walk leaf zero (link :: chain) element s = Element.walk leaf zero (link :: chain) other t := by
  show element.throughUnions s >>= _ = other.throughUnions t >>= _
  rw [same]

/-- `operator()` at an object: the field loop, then the walk from where it stops. -/
theorem Element.walk_object {α : Type} (leaf : Element → ReadStream → Option α) (zero : α)
    (desired : Option ℕ) (chain : List Link) (name : String) (fields : Fields) (s : ReadStream) :
    Element.walk leaf zero (.element desired :: chain) (.object name fields) s = (do
      let (found, s) ← fields.seek desired 0 s
      match found with
      | some child => Element.walk leaf zero chain child s
      | none => Element.walk leaf zero chain (.object name fields) s) :=
  rfl

/-- `operator()` at an array: its size, then the walk from the item when it is there. -/
theorem Element.walk_array {α : Type} (leaf : Element → ReadStream → Option α) (zero : α)
    (index : ℕ) (chain : List Link) (name : String) (child : Element) (s : ReadStream) :
    Element.walk leaf zero (.index index :: chain) (.array name child) s = (do
      let (size, s) ← s.readCount
      if size ≤ index then some zero else skipItems child index s >>= Element.walk leaf zero chain child) :=
  rfl

/-- The same at a fixed array. -/
theorem Element.walk_fixedArray {α : Type} (leaf : Element → ReadStream → Option α) (zero : α)
    (index : ℕ) (chain : List Link) (name : String) (arraySize : ℕ) (child : Element) (s : ReadStream) :
    Element.walk leaf zero (.index index :: chain) (.fixedArray name arraySize child) s =
      if arraySize ≤ index then some zero
      else skipItems child index s >>= Element.walk leaf zero chain child :=
  rfl

/-- The exact walk at an object. -/
theorem Element.eval_object (logStart : ℤ) (desired : Option ℕ) (chain : List Link) (name : String)
    (fields : Fields) (s : ReadStream) :
    Element.eval logStart (.element desired :: chain) (.object name fields) s = (do
      let (found, s) ← fields.seek desired 0 s
      match found with
      | some child => Element.eval logStart chain child s
      | none => Element.eval logStart chain (.object name fields) s) :=
  rfl

/-- The exact walk at an array. -/
theorem Element.eval_array (logStart : ℤ) (index : ℕ) (chain : List Link) (name : String)
    (child : Element) (s : ReadStream) :
    Element.eval logStart (.index index :: chain) (.array name child) s = (do
      let (size, s) ← s.readCount
      if size ≤ index then some 0 else skipItems child index s >>= Element.eval logStart chain child) :=
  rfl

/-- The exact walk at a fixed array. -/
theorem Element.eval_fixedArray (logStart : ℤ) (index : ℕ) (chain : List Link) (name : String)
    (arraySize : ℕ) (child : Element) (s : ReadStream) :
    Element.eval logStart (.index index :: chain) (.fixedArray name arraySize child) s =
      if arraySize ≤ index then some 0 else skipItems child index s >>= Element.eval logStart chain child :=
  rfl

/-- `ValueRetrieve::operator()` on an item of the record, from its timestamp and data, as the
exact value it converts to `float`: the time since the log's start in seconds, or the walk from
the record's root. -/
def ValueRetrieve.apply (getter : ValueRetrieve) (logStart : ℤ) (root : Element) (timestamp : ℤ)
    (data : ReadStream) : Option ℚ :=
  if getter.isTimestamp then some ((timestamp - logStart) / 1000000)
  else root.eval logStart getter.chain data

/-- `ValueRetrieve::operator()` as the `float` it returns: the time since the log's start in
seconds, a `double` made `float`, or the walk from the record's root. -/
def ValueRetrieve.call (getter : ValueRetrieve) (logStart : ℤ) (root : Element) (timestamp : ℤ)
    (data : ReadStream) : Option (Flt .float32) :=
  if getter.isTimestamp then
    some (Flt.narrow (convertDurationToSeconds ((timestamp - logStart : ℤ) : ℚ)))
  else root.walk (Element.leafFloat logStart) (Flt.ofRat 0) getter.chain data

/-- `PlotRetrieve::Root`. -/
structure Root where
  root : Option Element
  record : String
  xName : String
  yName : String
  valid : Bool

/-- The `{}` of an invalid root. -/
def Root.invalid : Root := ⟨none, "", "", "", false⟩

/-- `FindRoot`, with `records` the reader's schema roots by record name. `none`: a record the
reader does not have, whose `schema` the code reads through a null pointer. -/
def findRoot (records : String → Option Element) (xToken yToken : String) : Option Root :=
  let x := Tokenizer.of xToken
  let y := Tokenizer.of yToken
  let found (record : String) (x y : Tokenizer) : Option Root :=
    (records record).map fun root => ⟨some root, record, x.remaining, y.remaining, true⟩
  if xToken ≠ "" ∧ yToken ≠ "" then
    let (xRecord, x) := x.next
    let (yRecord, y) := y.next
    if xRecord ≠ yRecord then some Root.invalid else found xRecord x y
  else if xToken = "" ∧ yToken = "" then some Root.invalid
  else if xToken ≠ "" then
    let (record, x) := x.next
    found record x y
  else
    let (record, y) := y.next
    found record x y

/-- `PlotRetrieve`: its root and the getters `x_` and `y_`. -/
structure PlotRetrieve where
  root : Root
  x : ValueRetrieve
  y : ValueRetrieve

/-- The constructor. `none`: `FindRoot` or a getter's constructor fails. -/
def PlotRetrieve.make (records : String → Option Element) (xToken yToken : String) :
    Option PlotRetrieve := do
  let root ← findRoot records xToken yToken
  let x ← ValueRetrieve.make root.root root.xName
  let y ← ValueRetrieve.make root.root root.yName
  pure ⟨root, x, y⟩

/-- `valid()`. -/
def PlotRetrieve.valid (getter : PlotRetrieve) : Bool :=
  getter.root.valid && getter.x.valid && getter.y.valid

section Tokens

/-- The text of a path, its components joined by `.`. -/
def pathText : List String → List Char
  | [] => []
  | [component] => component.toList
  | component :: path => component.toList ++ '.' :: pathText path

/-- A path below a token: each of its components after a `.`. -/
def dotted : List String → List Char
  | [] => []
  | component :: path => '.' :: component.toList ++ dotted path

theorem dotted_cons (component : String) (path : List String) :
    dotted (component :: path) = '.' :: pathText (component :: path) := by
  induction path generalizing component with
  | nil => simp [dotted, pathText]
  | cons next path ih => rw [dotted, ih next]; rfl

/-- The tokenizer over a path of components without `.` reads them back one by one, and then
the empty token. -/
theorem Tokenizer.next_path {path : List String} (dotFree : ∀ c ∈ path, '.' ∉ c.toList) :
    (Tokenizer.mk (pathText path)).next = (path.headD "", ⟨pathText path.tail⟩) := by
  have keeps : ∀ c ∈ path, ∀ a ∈ c.data, (a != '.') = true := fun c member a inside =>
    bne_iff_ne.mpr fun same => dotFree c member (same ▸ inside)
  match path, keeps with
  | [], _ => rfl
  | [c], keeps =>
    simp only [Tokenizer.next, pathText, String.toList, List.span_eq_take_drop,
      List.takeWhile_eq_self_iff.mpr (keeps c (by simp)),
      List.dropWhile_eq_nil_iff.mpr (keeps c (by simp)), List.headD_cons]
  | c :: _ :: _, keeps =>
    simp only [Tokenizer.next, pathText, String.toList, List.span_eq_take_drop,
      List.takeWhile_append_of_pos (keeps c (by simp)), bne_self_eq_false, Bool.false_eq_true,
      not_false_eq_true, List.takeWhile_cons_of_neg, List.append_nil,
      List.dropWhile_append_of_pos (keeps c (by simp)), List.dropWhile_cons_of_neg,
      List.headD_cons, List.tail_cons]

private theorem digitChar_digit {d : ℕ} (small : d < 10) :
    (Nat.digitChar d).isDigit = true ∧ (Nat.digitChar d).toNat - '0'.toNat = d := by
  revert d
  decide

/-- One step of `Nat.toDigitsCore` in base 10: the last digit, then the rest of the number. -/
private theorem toDigitsCore_succ (fuel n : ℕ) (ds : List Char) :
    Nat.toDigitsCore 10 (fuel + 1) n ds =
      if n / 10 = 0 then Nat.digitChar (n % 10) :: ds
      else Nat.toDigitsCore 10 fuel (n / 10) (Nat.digitChar (n % 10) :: ds) := rfl

private theorem toDigitsCore_isDigit : ∀ (fuel n : ℕ) (ds : List Char),
    (∀ c ∈ ds, c.isDigit = true) → ∀ c ∈ Nat.toDigitsCore 10 fuel n ds, c.isDigit = true
  | 0, _, _, digits => digits
  | fuel + 1, n, ds, digits => by
    have more : ∀ c ∈ Nat.digitChar (n % 10) :: ds, c.isDigit = true :=
      List.forall_mem_cons.mpr ⟨(digitChar_digit (Nat.mod_lt n (by decide))).1, digits⟩
    rw [toDigitsCore_succ]
    split
    · exact more
    · exact toDigitsCore_isDigit fuel _ _ more

private theorem toDigitsCore_ne_nil : ∀ (fuel n : ℕ) (ds : List Char),
    0 < fuel ∨ ds ≠ [] → Nat.toDigitsCore 10 fuel n ds ≠ []
  | 0, _, _, started => started.resolve_left (Nat.lt_irrefl 0)
  | fuel + 1, n, ds, _ => by
    rw [toDigitsCore_succ]
    split
    · simp
    · exact toDigitsCore_ne_nil fuel _ _ (.inr (by simp))

private theorem toDigitsCore_value : ∀ (fuel n : ℕ) (ds : List Char), n < fuel →
    (Nat.toDigitsCore 10 fuel n ds).foldl (fun value digit => value * 10 + (digit.toNat - '0'.toNat)) 0 =
      ds.foldl (fun value digit => value * 10 + (digit.toNat - '0'.toNat)) n
  | 0, _, _, below => absurd below (Nat.not_lt_zero _)
  | fuel + 1, n, ds, below => by
    have digit := (digitChar_digit (Nat.mod_lt n (by decide : 10 > 0))).2
    rw [toDigitsCore_succ]
    split
    · next last => simp only [List.foldl_cons, digit]; congr 1; omega
    · rw [toDigitsCore_value fuel _ _ (by omega), List.foldl_cons, digit, Nat.div_add_mod']

/-- `std::stoull` reads back the index `RenderToken` writes for an array item. -/
theorem stoull_toString (n : ℕ) : stoull (toString n) = some n := by
  have text : (toString n).toList = Nat.toDigitsCore 10 (n + 1) n [] := rfl
  obtain ⟨first, more, spelled⟩ :=
    List.exists_cons_of_ne_nil (toDigitsCore_ne_nil (n + 1) n [] (.inl n.succ_pos))
  have digits := toDigitsCore_isDigit (n + 1) n [] (by simp)
  have value := toDigitsCore_value (n + 1) n [] n.lt_succ_self
  rw [stoull, text, List.takeWhile_eq_self_iff.mpr digits, spelled]
  rw [spelled] at value
  simpa using value

/-- An array index in a token is not empty and has no `.`. -/
theorem toString_component (n : ℕ) : '.' ∉ (toString n).toList ∧ toString n ≠ "" := by
  have text : (toString n).toList = Nat.toDigitsCore 10 (n + 1) n [] := rfl
  have digits := toDigitsCore_isDigit (n + 1) n [] (by simp)
  refine ⟨fun dot => ?_, fun empty => ?_⟩
  · rw [text] at dot
    exact absurd (digits _ dot) (by decide)
  · exact toDigitsCore_ne_nil (n + 1) n [] (.inl n.succ_pos) (text ▸ congrArg String.toList empty)

end Tokens

section RoundTrip

mutual

/-- The schemas the round trip holds for, named as the tree view and `ValueRetrieve` read names:
no name holds a `.`, an object's fields carry distinct names that are not empty and that their
elements carry too, and a union is optional, `null` or one alternative that carries the union's
name. -/
inductive Element.WellNamed : Element → Prop
  | scalar {name : String} {type : Scalar} : '.' ∉ name.toList →
      Element.WellNamed (.scalar name type)
  | enum {name : String} : '.' ∉ name.toList → Element.WellNamed (.enum name)
  | object {name : String} {fields : Fields} : '.' ∉ name.toList → Fields.WellNamed fields →
      Element.WellNamed (.object name fields)
  | array {name : String} {child : Element} : '.' ∉ name.toList → Element.WellNamed child →
      Element.WellNamed (.array name child)
  | fixedArray {name : String} {arraySize : ℕ} {child : Element} : '.' ∉ name.toList →
      Element.WellNamed child → Element.WellNamed (.fixedArray name arraySize child)
  | optional {name nullName : String} {alternative : Element} : '.' ∉ name.toList →
      alternative.name = name → Element.WellNamed alternative →
      Element.WellNamed (.union name (.cons (.scalar nullName .kNull) (.cons alternative .nil)))

/-- An object's fields as `Element.WellNamed` takes them. -/
inductive Fields.WellNamed : Fields → Prop
  | nil : Fields.WellNamed .nil
  | cons {name : String} {element : Element} {rest : Fields} : name ≠ "" → name ∉ rest.names →
      element.name = name → Element.WellNamed element → Fields.WellNamed rest →
      Fields.WellNamed (.cons name element rest)

end

/-- A leaf with a value to plot: a scalar other than `kFinal` and `kNull`, or an enum. -/
def Element.Valued : Element → Prop
  | .scalar _ type => type ≠ .kFinal ∧ type ≠ .kNull
  | .enum _ => True
  | _ => False

theorem Element.WellNamed.dotFree {element : Element} (named : element.WellNamed) :
    '.' ∉ element.name.toList := by
  cases named <;> assumption

theorem Parent.renderToken_field (parent : Parent) (object child : Element) (path : List String) :
    ((Parent.field parent object).renderToken child).toList ++ dotted path =
      (parent.renderToken object).toList ++ dotted (child.name :: path) := by
  simp [Parent.renderToken, dotted]

theorem Parent.renderToken_item (parent : Parent) (array child : Element) (index : ℕ)
    (path : List String) :
    ((Parent.item parent array index).renderToken child).toList ++ dotted path =
      (parent.renderToken array).toList ++ dotted (toString index :: path) := by
  simp [Parent.renderToken, dotted]

theorem Parent.renderToken_congr (parent : Parent) {child : Element} (other : Element)
    (same : child.name = other.name) : parent.renderToken child = parent.renderToken other := by
  cases parent <;> simp [Parent.renderToken, same]

/-- Both ways `operator()` skips array items skip what the tree view's walk read. -/
theorem skipItems_of_repeat {child : Element} {index : ℕ} {s at_ : ReadStream}
    (skipped : repeatRead child.ignore index s = some at_) : skipItems child index s = some at_ := by
  unfold skipItems
  split
  · next size fixed => rw [repeatRead_fixed (fun item => child.ignore_fixed fixed item) skipped]
  · exact skipped

mutual

/-- For a leaf with a value that the walk over an element offers: its token is the element's
own followed by a path of components; the constructor's loop at the element, fed that path, ends
valid with a chain; and `operator()` walks that chain from the element to the value at the
leaf. -/
theorem Element.WellNamed.retrieves : ∀ {element : Element}, element.WellNamed →
    ∀ {parent : Parent} {s rest : ReadStream} {rows : List Row} {row : Row},
    element.visit parent s = some (rows, rest) → row ∈ rows → row.leaf.Valued →
    ∃ path : List String, (∀ c ∈ path, '.' ∉ c.toList ∧ c ≠ "") ∧
      row.token.toList = (parent.renderToken element).toList ++ dotted path ∧
      ∃ chain, element.build (path.headD "") ⟨pathText path.tail⟩ = .valid chain ∧
        ∀ {α : Type} (leaf : Element → ReadStream → Option α) (zero : α),
          Element.walk leaf zero chain element s = leaf row.leaf row.data
  | _, .scalar _, _, _, _, _, _, walked, member, _
  | _, .enum _, _, _, _, _, _, walked, member, _ => by
    simp only [Element.visit, Option.bind_eq_bind, Option.bind_eq_some, Option.pure_def,
      Option.some.injEq, Prod.mk.injEq] at walked
    obtain ⟨_, _, rfl, rfl⟩ := walked
    obtain rfl := List.mem_singleton.mp member
    exact ⟨[], by simp, by simp [dotted], _, rfl, fun _ _ => rfl⟩
  | _, .object _ fieldsNamed, _, _, _, _, _, walked, member, valued => by
    simp only [Element.visit, Option.bind_eq_bind, Option.bind_eq_some, Option.pure_def,
      Option.some.injEq, Prod.mk.injEq] at walked
    obtain ⟨⟨_, _⟩, visited, rfl, rfl⟩ := walked
    rcases List.mem_append.mp member with leaf | inner
    · cases fieldsNamed <;> simp only [Fields.leafRows, List.mem_singleton,
        List.not_mem_nil] at leaf
      subst leaf
      exact absurd valued (by simp [Element.Valued])
    · obtain ⟨name, -, path, dotFree, nonempty, components, token, desired, chain, -, built,
        child, at_, sought, evaluated⟩ := fieldsNamed.retrieves 0 visited inner valued
      refine ⟨name :: path, List.forall_mem_cons.mpr ⟨⟨dotFree, nonempty⟩, components⟩, token,
        _, built, fun leaf zero => ?_⟩
      rw [Element.walk_object, sought]
      exact evaluated leaf zero
  | _, .array _ childNamed, _, _, _, _, _, walked, member, valued => by
    simp only [Element.visit, Option.bind_eq_bind, Option.bind_eq_some] at walked
    obtain ⟨⟨size, after⟩, read, walked⟩ := walked
    obtain ⟨offset, below, at_, itemRows, _, skipped, visited, inner⟩ :=
      doArray_mem (fun _ _ _ _ item => Element.visit_ignore _ item) walked member
    rw [Nat.zero_add] at visited
    obtain ⟨path, components, token, chain, built, evaluated⟩ :=
      childNamed.retrieves visited inner valued
    refine ⟨toString offset :: path, List.forall_mem_cons.mpr ⟨toString_component offset,
      components⟩, ?_, .index offset :: chain, ?_, fun leaf zero => ?_⟩
    · rw [token, Parent.renderToken_item]
    · simp only [Element.build_array, List.headD_cons, List.tail_cons, stoull_toString,
        Tokenizer.next_path fun c member => (components c member).1, built, Built.cons]
    · rw [Element.walk_array, read]
      simp only [Option.bind_eq_bind, Option.some_bind, Nat.not_le.mpr below, if_false,
        skipItems_of_repeat skipped]
      exact evaluated leaf zero
  | _, .fixedArray _ childNamed, _, _, _, _, _, walked, member, valued => by
    simp only [Element.visit] at walked
    obtain ⟨offset, below, at_, itemRows, _, skipped, visited, inner⟩ :=
      doArray_mem (fun _ _ _ _ item => Element.visit_ignore _ item) walked member
    rw [Nat.zero_add] at visited
    obtain ⟨path, components, token, chain, built, evaluated⟩ :=
      childNamed.retrieves visited inner valued
    refine ⟨toString offset :: path, List.forall_mem_cons.mpr ⟨toString_component offset,
      components⟩, ?_, .index offset :: chain, ?_, fun leaf zero => ?_⟩
    · rw [token, Parent.renderToken_item]
    · simp only [Element.build_fixedArray, List.headD_cons, List.tail_cons, stoull_toString,
        Tokenizer.next_path fun c member => (components c member).1, built, Built.cons]
    · rw [Element.walk_fixedArray, if_neg (Nat.not_le.mpr below), skipItems_of_repeat skipped]
      exact evaluated leaf zero
  | _, @Element.WellNamed.optional unionName nullName alternative _ sameName alternativeNamed,
      parent, s, _, _, _, walked, member, valued => by
    simp only [Element.visit, Option.bind_eq_bind, Option.bind_eq_some] at walked
    obtain ⟨⟨index, after⟩, read, walked⟩ := walked
    rcases index with _ | _ | index
    · simp only [Elements.visitAt, Element.visit, Option.bind_eq_bind, Option.bind_eq_some,
        Option.pure_def, Option.some.injEq, Prod.mk.injEq] at walked
      obtain ⟨_, _, rfl, rfl⟩ := walked
      obtain rfl := List.mem_singleton.mp member
      exact absurd valued (by simp [Element.Valued])
    · simp only [Elements.visitAt] at walked
      obtain ⟨path, components, token, chain, built, evaluated⟩ :=
        alternativeNamed.retrieves walked member valued
      refine ⟨path, components, by
        rw [token, parent.renderToken_congr
          (.union unionName (.cons (.scalar nullName .kNull) (.cons alternative .nil))) sameName],
        chain, built, fun leaf zero => ?_⟩
      rw [← evaluated leaf zero]
      cases chain with
      | nil => rfl
      | cons link chain =>
        refine Element.walk_cons_congr ?_ leaf zero link chain
        show s.readCount >>= _ = _
        rw [read]
        rfl
    · simp [Elements.visitAt] at walked

/-- For a leaf with a value that the walk over an object's fields offers: its token is the
object's, a field's name and a path below it; the search of the fields from `position` finds
that name at a field no earlier, and `operator()`'s field loop reaches that field's element where
the walk below it starts. -/
theorem Fields.WellNamed.retrieves : ∀ {fields : Fields}, fields.WellNamed → ∀ (position : ℕ)
    {parent : Parent} {object : Element} {s rest : ReadStream} {rows : List Row} {row : Row},
    fields.visit (.field parent object) s = some (rows, rest) → row ∈ rows → row.leaf.Valued →
    ∃ name ∈ fields.names, ∃ path : List String, '.' ∉ name.toList ∧ name ≠ "" ∧
      (∀ c ∈ path, '.' ∉ c.toList ∧ c ≠ "") ∧
      row.token.toList = (parent.renderToken object).toList ++ dotted (name :: path) ∧
      ∃ desired chain, position ≤ desired ∧
        fields.build position name ⟨pathText path⟩ = .valid (.element (some desired) :: chain) ∧
        ∃ child at_, fields.seek (some desired) position s = some (some child, at_) ∧
          ∀ {α : Type} (leaf : Element → ReadStream → Option α) (zero : α),
            Element.walk leaf zero chain child at_ = leaf row.leaf row.data
  | _, .nil, _, _, _, _, _, _, _, walked, member, _ => by
    simp only [Fields.visit, Option.some.injEq, Prod.mk.injEq] at walked
    obtain ⟨rfl, -⟩ := walked
    exact absurd member (List.not_mem_nil _)
  | _, @Fields.WellNamed.cons headName _ _ nonempty fresh sameName elementNamed restNamed, position,
      _, _, s, _, _, _, walked, member, valued => by
    simp only [Fields.visit, Option.bind_eq_bind, Option.bind_eq_some, Option.pure_def,
      Option.some.injEq, Prod.mk.injEq] at walked
    obtain ⟨⟨_, middle⟩, first, ⟨_, _⟩, more, rfl, rfl⟩ := walked
    rcases List.mem_append.mp member with here | later
    · obtain ⟨path, components, token, chain, built, evaluated⟩ :=
        elementNamed.retrieves first here valued
      refine ⟨_, List.mem_cons_self _ _, path, sameName ▸ elementNamed.dotFree, nonempty,
        components, ?_, position, chain, le_rfl, ?_, _, s, by simp [Fields.seek], evaluated⟩
      · rw [token, Parent.renderToken_field, sameName]
      · simp only [Fields.build, if_pos, Tokenizer.next_path fun c member => (components c member).1,
          built, Built.cons]
    · obtain ⟨name, named, path, dotFree, nonempty', components, token, desired, chain, above,
        built, child, at_, sought, evaluated⟩ := restNamed.retrieves (position + 1) more later valued
      have differs : headName ≠ name := fun same => fresh (same ▸ named)
      refine ⟨name, List.mem_cons_of_mem _ named, path, dotFree, nonempty', components, token,
        desired, chain, by omega, by simp [Fields.build, differs, built], child, at_, ?_,
        evaluated⟩
      have apart : some desired ≠ some position := by simp only [ne_eq, Option.some.injEq]; omega
      simp only [Fields.seek, if_neg apart, Element.visit_ignore _ first, Option.bind_eq_bind,
        Option.some_bind]
      exact sought

end

theorem pathText_ne_nil {component : String} (nonempty : component ≠ "") (path : List String) :
    pathText (component :: path) ≠ [] := by
  cases path with
  | nil => exact fun empty => nonempty (String.ext empty)
  | cons => simp [pathText]

/-- `FindRoot("", token)`: the record is the token's first part, and the y getter gets the
rest. -/
theorem findRoot_y {records : String → Option Element} {yToken : String} (nonempty : yToken ≠ "") :
    findRoot records "" yToken = (records (Tokenizer.of yToken).next.1).map fun root =>
      ⟨some root, (Tokenizer.of yToken).next.1, "", (Tokenizer.of yToken).next.2.remaining, true⟩ := by
  simp only [findRoot, ne_eq, not_true_eq_false, nonempty, not_false_eq_true, and_true, if_false,
    and_false, Tokenizer.of, String.toList, Tokenizer.remaining]

/-- The round trip below a record's root: for every item and every leaf with a value that the
tree offers in it, other than the root itself, `AddPlot("", token)` builds a valid getter on the
record, with the item's time as x, whose walk for y through that item's data ends at the leaf the
tree read, whatever is returned there. -/
theorem drag_token_walks_leaf {records : String → Option Element} {root : Element}
    {data rest : ReadStream} {rows : List Row} {row : Row} (named : root.WellNamed)
    (found : records root.name = some root) (visited : root.visit .top data = some (rows, rest))
    (member : row ∈ rows) (valued : row.leaf.Valued) (below : row.token ≠ root.name) :
    ∃ getter, PlotRetrieve.make records "" row.token = some getter ∧ getter.valid = true ∧
      getter.root.record = root.name ∧ getter.root.root = some root ∧
      getter.x.isTimestamp = true ∧ getter.y.isTimestamp = false ∧
      ∀ {α : Type} (leaf : Element → ReadStream → Option α) (zero : α),
        root.walk leaf zero getter.y.chain data = leaf row.leaf row.data := by
  obtain ⟨path, components, token, chain, built, evaluated⟩ :=
    named.retrieves visited member valued
  rcases path with _ | ⟨component, path⟩
  · exact absurd (String.ext (by simpa [Parent.renderToken, dotted] using token)) below
  have spelled : row.token = ⟨pathText (root.name :: component :: path)⟩ :=
    String.ext (by rw [← String.toList, token, dotted_cons]; rfl)
  have first := Tokenizer.next_path
    (List.forall_mem_cons.mpr ⟨named.dotFree, fun c member => (components c member).1⟩)
  have second := Tokenizer.next_path fun c member => (components c member).1
  have nonempty : (⟨pathText (component :: path)⟩ : String) ≠ "" := fun empty =>
    pathText_ne_nil (components component (by simp)).2 path (congrArg String.data empty)
  refine ⟨⟨⟨some root, root.name, "", ⟨pathText (component :: path)⟩, true⟩, ⟨true, true, []⟩,
    ⟨false, true, chain⟩⟩, ?_, rfl, rfl, rfl, rfl, rfl, evaluated⟩
  simp only [List.headD_cons, List.tail_cons] at built
  rw [spelled, PlotRetrieve.make, findRoot_y fun empty => by
    simpa [pathText] using congrArg String.data empty]
  simp only [Tokenizer.of, String.toList, first, List.headD_cons, List.tail_cons,
    Tokenizer.remaining, found, Option.map_some', ValueRetrieve.make, Option.bind_eq_bind,
    Option.pure_def, Option.some_bind, if_true, if_false, nonempty, second, built]

/-- The same round trip for the exact value: the getter's y value for the item is the value at
the leaf the tree read. -/
theorem drag_token_retrieves_leaf {records : String → Option Element} {root : Element}
    {data rest : ReadStream} {rows : List Row} {row : Row} (named : root.WellNamed)
    (found : records root.name = some root) (visited : root.visit .top data = some (rows, rest))
    (member : row ∈ rows) (valued : row.leaf.Valued) (below : row.token ≠ root.name) :
    ∃ getter, PlotRetrieve.make records "" row.token = some getter ∧ getter.valid = true ∧
      ∀ logStart timestamp,
        getter.y.apply logStart root timestamp data = row.leaf.leafValue logStart row.data := by
  obtain ⟨getter, made, valid, -, -, -, exact, walked⟩ :=
    drag_token_walks_leaf named found visited member valued below
  refine ⟨getter, made, valid, fun logStart _ => ?_⟩
  rw [ValueRetrieve.apply, if_neg (by simp [exact])]
  exact walked (Element.leafValue logStart) 0

/-- The getter `AddPlot("", token)` builds from a token that is a bare record name, as the tree
drags for a record whose root is a leaf: it is valid, and its y value is the item's time since
the log's start, whatever the item's data. -/
theorem bare_token_plots_time {records : String → Option Element} {record : String}
    {root : Element} (found : records record = some root) (dotFree : '.' ∉ record.toList)
    (nonempty : record ≠ "") :
    ∃ getter, PlotRetrieve.make records "" record = some getter ∧ getter.valid = true ∧
      ∀ logStart timestamp data,
        getter.y.apply logStart root timestamp data = some ((timestamp - logStart) / 1000000 : ℚ) := by
  have next : (Tokenizer.of record).next = (record, ⟨[]⟩) :=
    @Tokenizer.next_path [record] (by simpa using dotFree)
  refine ⟨⟨⟨some root, record, "", "", true⟩, ⟨true, true, []⟩, ⟨true, true, []⟩⟩, ?_, rfl,
    fun _ _ _ => rfl⟩
  rw [PlotRetrieve.make, findRoot_y nonempty]
  simp only [next, Tokenizer.remaining, found, Option.map_some', ValueRetrieve.make,
    Option.bind_eq_bind, Option.pure_def, Option.some_bind, if_true]

end RoundTrip

/-- The claim's failing input: a record `voltage` whose root is a `float`. The tree offers the
bare name as the token of its only leaf, for an item holding 12; `AddPlot("", "voltage")` builds
a valid getter, and for that item, logged 5 s after the log's start, the y value is 5, not 12. -/
theorem scalar_root_plots_time :
    ((Element.scalar "voltage" .kFloat32).visit .top [12]).map (·.1.map Row.token) =
        some ["voltage"] ∧
      (Element.scalar "voltage" .kFloat32).leafValue 0 [12] = some 12 ∧
      ∃ getter, PlotRetrieve.make (fun name => if name = "voltage" then
          some (.scalar "voltage" .kFloat32) else none) "" "voltage" = some getter ∧
        getter.valid = true ∧ getter.y.apply 0 (.scalar "voltage" .kFloat32) 5000000 [12] = some 5 := by
  obtain ⟨getter, made, valid, time⟩ :=
    @bare_token_plots_time (fun name => if name = "voltage" then
      some (.scalar "voltage" .kFloat32) else none) "voltage" _ rfl (by decide) (by decide)
  refine ⟨by decide, rfl, getter, made, valid, ?_⟩
  rw [time]
  norm_num

end Mjmech.Tplot
