import Mathlib.Algebra.Order.Ring.Unbundled.Rat
import Mathlib.Data.Fin.VecNotation

/-! `MechRender` in `tplot2.cc`, as far as its vertex and index buffers go: `Update` clears
`triangle_data_`, `triangle_indices_`, `line_data_` and `line_indices_`, `Render` fills them
through the drawing calls, and `glDrawElements` draws the vertices the indices name. A float
is an exact rational and a float literal its decimal value; `std::sqrt`, `std::cos` and
`std::sin` are the fields of `Libm`. `base::Quaternion` is not in the source tree, so
`DrawGround` and `DrawMech` take the matrix `AttitudeMatrix` returns, and the telemetry
readers of `Render` hand over decoded legs. Every run of drawing calls from cleared buffers
keeps each index below the number of vertices uploaded with it (`draws_keep_buffers_valid`),
however many vertices it adds: a `uint32_t` index that wraps only gets smaller; so is each
upload of `Update`, with or without a mech (`update_valid`). A ball of `SphereModel(levels)` is
`20 * 4^levels` triangles (`SphereModel.build_length`). -/
namespace Mjmech.Tplot

/-- `Eigen::Vector3f`. -/
structure Vec3 where
  x : ℚ
  y : ℚ
  z : ℚ

/-- `Eigen::Vector2f`, a texture coordinate. -/
structure Vec2 where
  x : ℚ
  y : ℚ

/-- `Eigen::Vector4f`, a colour `rgba(0)` to `rgba(3)`. -/
structure Vec4 where
  x : ℚ
  y : ℚ
  z : ℚ
  w : ℚ

namespace Vec3

instance : Add Vec3 := ⟨fun a b => ⟨a.x + b.x, a.y + b.y, a.z + b.z⟩⟩

instance : Sub Vec3 := ⟨fun a b => ⟨a.x - b.x, a.y - b.y, a.z - b.z⟩⟩

instance : SMul ℚ Vec3 := ⟨fun c a => ⟨c * a.x, c * a.y, c * a.z⟩⟩

/-- `cross`. -/
def cross (a b : Vec3) : Vec3 :=
  ⟨a.y * b.z - a.z * b.y, a.z * b.x - a.x * b.z, a.x * b.y - a.y * b.x⟩

/-- `squaredNorm`. -/
def squaredNorm (a : Vec3) : ℚ := a.x * a.x + a.y * a.y + a.z * a.z

end Vec3

/-- What the renderer takes from `<cmath>`: `sqrt`, and `cos` and `sin` of the angle
`2 * M_PI * t`, given by `t`. -/
structure Libm where
  sqrt : ℚ → ℚ
  cosTurn : ℚ → ℚ
  sinTurn : ℚ → ℚ

/-- Eigen's `normalized`: the vector over its norm, or the vector itself when the norm is 0. -/
def Vec3.normalized (libm : Libm) (a : Vec3) : Vec3 :=
  let norm := libm.sqrt a.squaredNorm
  if 0 < a.squaredNorm then ⟨a.x / norm, a.y / norm, a.z / norm⟩ else a

/-- `Eigen::Matrix3d`, by row and column. -/
abbrev Mat3 := Fin 3 → Fin 3 → ℚ

/-- `Eigen::Matrix4f`, by row and column. -/
abbrev Mat4 := Fin 4 → Fin 4 → ℚ

/-- A 3 by 3 matrix times a vector. -/
def Mat3.mulVec (m : Mat3) (v : Vec3) : Vec3 :=
  ⟨m 0 0 * v.x + m 0 1 * v.y + m 0 2 * v.z, m 1 0 * v.x + m 1 1 * v.y + m 1 2 * v.z,
    m 2 0 * v.x + m 2 1 * v.y + m 2 2 * v.z⟩

/-- Eigen's `inverse` of a 3 by 3 matrix: the transposed cofactors over the determinant. -/
def Mat3.inverse (m : Mat3) : Mat3 :=
  let cofactor (i j : Fin 3) : ℚ :=
    m (i + 1) (j + 1) * m (i + 2) (j + 2) - m (i + 1) (j + 2) * m (i + 2) (j + 1)
  let det := m 0 0 * cofactor 0 0 + m 0 1 * cofactor 0 1 + m 0 2 * cofactor 0 2
  fun i j => cofactor j i / det

/-- `Eigen::Matrix4f::Identity()`. -/
def Mat4.identity : Mat4 := fun i j => if i = j then 1 else 0

/-- The identity with its `topLeftCorner<3, 3>()` set to `m`. -/
def Mat4.withTopLeft (m : Mat3) : Mat4 := fun i j =>
  if h : i.val < 3 ∧ j.val < 3 then m ⟨i, h.1⟩ ⟨j, h.2⟩ else Mat4.identity i j

/-- `Transform`: `p` in homogeneous coordinates through `matrix`, over the last coordinate. -/
def transform (matrix : Mat4) (p : Vec3) : Vec3 :=
  let r (i : Fin 4) : ℚ := matrix i 0 * p.x + matrix i 1 * p.y + matrix i 2 * p.z + matrix i 3
  ⟨r 0 / r 3, r 1 / r 3, r 2 / r 3⟩

/-- `SphereModel::Triangle`. -/
structure Triangle where
  p1 : Vec3
  p2 : Vec3
  p3 : Vec3

/-- `SphereModel`: its `unit_` triangles. -/
structure SphereModel where
  unit : List Triangle

namespace SphereModel

/-- `Subdivide`: the face `v1 v2 v3` split `depth` times, each edge's midpoint pushed out to the
unit sphere. -/
def subdivide (libm : Libm) : ℕ → Vec3 → Vec3 → Vec3 → List Triangle
  | 0, v1, v2, v3 => [⟨v1, v2, v3⟩]
  | depth + 1, v1, v2, v3 =>
    let v12 := ((1 / 2 : ℚ) • (v1 + v2)).normalized libm
    let v23 := ((1 / 2 : ℚ) • (v2 + v3)).normalized libm
    let v13 := ((1 / 2 : ℚ) • (v1 + v3)).normalized libm
    subdivide libm depth v1 v12 v13 ++ subdivide libm depth v2 v23 v12 ++
      subdivide libm depth v3 v13 v23 ++ subdivide libm depth v12 v23 v13

/-- `vdata_`, the icosahedron's vertices. -/
def vdata : Fin 12 → Vec3 :=
  let X : ℚ := 0.525731112119133696
  let Z : ℚ := 0.850650808352039932
  ![⟨-X, 0, Z⟩, ⟨X, 0, Z⟩, ⟨-X, 0, -Z⟩, ⟨X, 0, -Z⟩, ⟨0, Z, X⟩, ⟨0, Z, -X⟩, ⟨0, -Z, X⟩,
    ⟨0, -Z, -X⟩, ⟨Z, X, 0⟩, ⟨-Z, X, 0⟩, ⟨Z, -X, 0⟩, ⟨-Z, -X, 0⟩]

/-- `tindicies_`, the icosahedron's faces. -/
def tindicies : List (Fin 12 × Fin 12 × Fin 12) :=
  [(1, 4, 0), (4, 9, 0), (4, 5, 9), (8, 5, 4), (1, 8, 4), (1, 10, 8), (10, 3, 8), (8, 3, 5),
    (3, 2, 5), (3, 7, 2), (3, 10, 7), (10, 6, 7), (6, 11, 7), (6, 0, 11), (6, 1, 0), (10, 1, 6),
    (11, 0, 9), (2, 11, 9), (5, 2, 9), (11, 2, 7)]

/-- The constructor `SphereModel(levels)`: every face subdivided `levels` times. -/
def build (libm : Libm) (levels : ℕ) : SphereModel :=
  ⟨tindicies.flatMap fun (a, b, c) => subdivide libm levels (vdata a) (vdata b) (vdata c)⟩

/-- `operator()`: the unit triangles scaled by `radius` and moved to `center`. -/
def apply (sphere : SphereModel) (center : Vec3) (radius : ℚ) : List Triangle :=
  sphere.unit.map fun t => ⟨radius • t.p1 + center, radius • t.p2 + center, radius • t.p3 + center⟩

/-- Each level of `Subdivide` splits a face in four. -/
theorem subdivide_length (libm : Libm) :
    ∀ (depth : ℕ) (v1 v2 v3 : Vec3), (subdivide libm depth v1 v2 v3).length = 4 ^ depth
  | 0, _, _, _ => rfl
  | depth + 1, v1, v2, v3 => by
    simp only [subdivide, List.length_append, subdivide_length libm depth, pow_succ]
    omega

/-- `SphereModel(levels)` has `20 * 4^levels` triangles, and `AddBall` draws each of them, for
every `sqrt` the renderer is given. -/
theorem build_length (libm : Libm) (levels : ℕ) (center : Vec3) (radius : ℚ) :
    ((build libm levels).apply center radius).length = 20 * 4 ^ levels := by
  simp only [apply, build, List.length_map, List.flatMap, List.length_flatten, List.map_map,
    Function.comp_def, subdivide_length, tindicies]
  simp only [List.map_cons, List.map_nil, List.sum_cons, List.sum_nil]
  omega

end SphereModel

/-- A leg of `QuadrupedControl`'s status or command, as `DrawMech` reads it. -/
structure Leg where
  positionMm : Vec3
  velocityMmS : Vec3
  forceN : Vec3

/-- The members of `MechRender` that drawing reads or writes: `sphere_`, `transform_`, the four
buffers and the check boxes. -/
structure MechRender where
  sphere : SphereModel
  transform : Mat4
  triangleData : List ℚ
  triangleIndices : List UInt32
  lineData : List ℚ
  lineIndices : List UInt32
  legActual : Bool
  legCommand : Bool
  legForce : Bool
  attitude : Bool
  ground : Bool

/-- `kVelocityDrawScale`. -/
def kVelocityDrawScale : ℚ := 0.1

/-- `kForceDrawScale`. -/
def kForceDrawScale : ℚ := 2

/-- `kGroundSize_mm`. -/
def kGroundSizeMm : ℚ := 500

/-- The shared body of `AddVertex` and `AddLineVertex`: append one vertex's `values` to `data`
and number it `i / stride` of the size `i` before, as a `uint32_t`. -/
def pushVertex (stride : ℕ) (data values : List ℚ) : UInt32 × List ℚ :=
  (UInt32.ofNat (data.length / stride), data ++ values)

namespace MechRender

/-- `AddVertex`: twelve floats, the position through `transform_`, the normal, the texture
coordinate and the colour. -/
def addVertex (r : MechRender) (p1In normal : Vec3) (uv : Vec2) (rgba : Vec4) :
    UInt32 × MechRender :=
  let p1 := Tplot.transform r.transform p1In
  let (index, data) := pushVertex 12 r.triangleData
    [p1.x, p1.y, p1.z, normal.x, normal.y, normal.z, uv.x, uv.y, rgba.x, rgba.y, rgba.z, rgba.w]
  (index, { r with triangleData := data })

/-- `AddLineVertex`: seven floats, the position through `transform_` and the colour. -/
def addLineVertex (r : MechRender) (p1In : Vec3) (rgba : Vec4) : UInt32 × MechRender :=
  let p1 := Tplot.transform r.transform p1In
  let (index, data) := pushVertex 7 r.lineData [p1.x, p1.y, p1.z, rgba.x, rgba.y, rgba.z, rgba.w]
  (index, { r with lineData := data })

/-- `AddTriangle`: three vertices that share the face's cross product as their normal. -/
def addTriangle (r : MechRender) (p1 p2 p3 : Vec3) (rgba : Vec4) : MechRender :=
  let normal := (p3 - p1).cross (p2 - p1)
  let (index1, r) := r.addVertex p1 normal ⟨0, 0⟩ rgba
  let (index2, r) := r.addVertex p2 normal ⟨0, 0⟩ rgba
  let (index3, r) := r.addVertex p3 normal ⟨0, 0⟩ rgba
  { r with triangleIndices := r.triangleIndices ++ [index1, index2, index3] }

/-- `AddQuad`: four vertices that share the unit normal, drawn as the triangles `1 2 3` and
`3 4 1`. -/
def addQuad (libm : Libm) (r : MechRender) (p1 p2 p3 p4 : Vec3) (rgba : Vec4) : MechRender :=
  let uv : Vec2 := ⟨0, 0⟩
  let normal := ((p3 - p1).cross (p2 - p1)).normalized libm
  let (index1, r) := r.addVertex p1 normal uv rgba
  let (index2, r) := r.addVertex p2 normal uv rgba
  let (index3, r) := r.addVertex p3 normal uv rgba
  let (index4, r) := r.addVertex p4 normal uv rgba
  { r with triangleIndices :=
      r.triangleIndices ++ [index1, index2, index3, index3, index4, index1] }

/-- `AddLineSegment`. -/
def addLineSegment (r : MechRender) (p1 p2 : Vec3) (rgba : Vec4) : MechRender :=
  let (index1, r) := r.addLineVertex p1 rgba
  let (index2, r) := r.addLineVertex p2 rgba
  { r with lineIndices := r.lineIndices ++ [index1, index2] }

/-- `AddBall`: the triangles of `sphere_` at `center` and `radius`, each drawn `p3 p2 p1`. -/
def addBall (r : MechRender) (center : Vec3) (radius : ℚ) (rgba : Vec4) : MechRender :=
  (r.sphere.apply center radius).foldl (fun r t => r.addTriangle t.p3 t.p2 t.p1 rgba) r

/-- `AddBox`: the six faces of the box about `center` spanned by `length`, `width` and
`height`, the back blue and the front green. -/
def addBox (libm : Libm) (r : MechRender) (center length width height : Vec3) (rgba : Vec4) :
    MechRender :=
  let hl := (0.5 : ℚ) • length
  let hw := (0.5 : ℚ) • width
  let hh := (0.5 : ℚ) • height
  let r := r.addQuad libm (center - hh - hw - hl) (center - hh - hw + hl)
    (center - hh + hw + hl) (center - hh + hw - hl) rgba
  let r := r.addQuad libm (center + hh + hw - hl) (center + hh + hw + hl)
    (center + hh - hw + hl) (center + hh - hw - hl) rgba
  let r := r.addQuad libm (center - hl - hh - hw) (center - hl - hh + hw)
    (center - hl + hh + hw) (center - hl + hh - hw) ⟨0, 0, 1, 1⟩
  let r := r.addQuad libm (center + hl + hh - hw) (center + hl + hh + hw)
    (center + hl - hh + hw) (center + hl - hh - hw) ⟨0, 1, 0, 1⟩
  let r := r.addQuad libm (center - hw - hh - hl) (center - hw - hh + hl)
    (center - hw + hh + hl) (center - hw + hh - hl) rgba
  r.addQuad libm (center + hw + hh - hl) (center + hw + hh + hl)
    (center + hw - hh + hl) (center + hw - hh - hl) rgba

/-- One pass of `DrawGround`'s loop, side `i` of the disc: the rim vertices at the turns
`i / 16` and `((i + 1) % 16) / 16`, at distance `l` and height `maxZL`, and the triangle they
make with the centre vertex `ic`. -/
def groundSide (libm : Libm) (l maxZL : ℚ) (normal : Vec3) (uv : Vec2) (rgba : Vec4) (ic : UInt32)
    (r : MechRender) (i : ℕ) : MechRender :=
  let t1 : ℚ := i / 16
  let p1L : Vec3 := ⟨l * libm.cosTurn t1, l * libm.sinTurn t1, maxZL⟩
  let t2 : ℚ := ((i + 1) % 16 : ℕ) / 16
  let p2L : Vec3 := ⟨l * libm.cosTurn t2, l * libm.sinTurn t2, maxZL⟩
  let (i1, r) := r.addVertex p1L normal uv rgba
  let (i2, r) := r.addVertex p2L normal uv rgba
  { r with triangleIndices := r.triangleIndices ++ [i1, i2, ic] }

/-- `DrawGround`: a 16-sided disc of radius `kGroundSize_mm` level with the lowest foot (the
largest `z` of the feet through `tf_LB`, and at least 0), as a centre vertex `ic` and the 16
sides of `groundSide`. Without `attitude_` the disc is drawn in the body frame, through the
inverse of `tf_LB`. -/
def drawGround (libm : Libm) (r : MechRender) (feet : List Vec3) (tfLB : Mat3) : MechRender :=
  let maxZL := feet.foldl (fun maxZL foot => max maxZL (tfLB.mulVec foot).z) 0
  let l := kGroundSizeMm
  let normal : Vec3 := ⟨0, 0, -1⟩
  let uv : Vec2 := ⟨0, 0⟩
  let rgba : Vec4 := ⟨0.3, 0.3, 0.3, 1⟩
  let r := if r.attitude then r else { r with transform := Mat4.withTopLeft tfLB.inverse }
  let (ic, r) := r.addVertex ⟨0, 0, maxZL⟩ normal uv rgba
  (List.range 16).foldl (groundSide libm l maxZL normal uv rgba ic) r

/-- The two leg loops of `DrawMech`: per leg a ball at the foot and a line along its velocity,
or along its force when `leg_force_` is set. -/
def drawLegs (r : MechRender) (legs : List Leg) (radius : ℚ) (rgba : Vec4) : MechRender :=
  legs.foldl (fun r leg =>
    let r := r.addBall leg.positionMm radius rgba
    let tip := if r.legForce then leg.positionMm + kForceDrawScale • leg.forceN
      else leg.positionMm + kVelocityDrawScale • leg.velocityMmS
    r.addLineSegment leg.positionMm tip rgba) r

/-- `DrawMech`: the ground, the body as a box, the actual legs in green and the commanded legs
in blue, each as its check box says. -/
def drawMech (libm : Libm) (r : MechRender) (actual command : List Leg) (tfLB : Mat3) :
    MechRender :=
  let r := if r.ground then r.drawGround libm (actual.map Leg.positionMm) tfLB else r
  let r := { r with transform := if r.attitude then Mat4.withTopLeft tfLB else Mat4.identity }
  let r := r.addBox libm ⟨0, 0, 0⟩ ⟨230, 0, 0⟩ ⟨0, 240, 0⟩ ⟨0, 0, 125⟩ ⟨1, 0, 0, 1⟩
  let r := if r.legActual then r.drawLegs actual 10 ⟨0, 1, 0, 1⟩ else r
  let r := if r.legCommand then r.drawLegs command 8 ⟨0, 0, 1, 1⟩ else r
  { r with transform := Mat4.identity }

/-- The start of `Update`: the four buffers cleared. -/
def clear (r : MechRender) : MechRender :=
  { r with triangleData := [], triangleIndices := [], lineData := [], lineIndices := [] }

/-- The buffers `Update` uploads: cleared, then filled by `Render`, which draws the mech when
the tree view holds a `qc_status`, a `qc_control` and an `imu` item (`mech`: the actual legs,
the commanded legs and the attitude matrix they decode to). -/
def update (libm : Libm) (r : MechRender) (mech : Option (List Leg × List Leg × Mat3)) :
    MechRender :=
  match mech with
  | some (actual, command, tfLB) => r.clear.drawMech libm actual command tfLB
  | none => r.clear

end MechRender

/-- A drawing call of `MechRender`, with its arguments. -/
inductive Draw
  | drawGround (feet : List Vec3) (tfLB : Mat3)
  | addBox (center length width height : Vec3) (rgba : Vec4)
  | addBall (center : Vec3) (radius : ℚ) (rgba : Vec4)
  | addQuad (p1 p2 p3 p4 : Vec3) (rgba : Vec4)
  | addTriangle (p1 p2 p3 : Vec3) (rgba : Vec4)
  | addLineSegment (p1 p2 : Vec3) (rgba : Vec4)

/-- One drawing call. -/
def MechRender.draw (libm : Libm) (r : MechRender) : Draw → MechRender
  | .drawGround feet tfLB => r.drawGround libm feet tfLB
  | .addBox center length width height rgba => r.addBox libm center length width height rgba
  | .addBall center radius rgba => r.addBall center radius rgba
  | .addQuad p1 p2 p3 p4 rgba => r.addQuad libm p1 p2 p3 p4 rgba
  | .addTriangle p1 p2 p3 rgba => r.addTriangle p1 p2 p3 rgba
  | .addLineSegment p1 p2 rgba => r.addLineSegment p1 p2 rgba

/-- Every index names one of the vertices in `data`, `stride` values each; `data` holds whole
vertices and the indices come in whole primitives of `group`. -/
structure IndexedBy (stride group : ℕ) (data : List ℚ) (indices : List UInt32) : Prop where
  whole : stride ∣ data.length
  grouped : group ∣ indices.length
  named : ∀ i ∈ indices, i.toNat < data.length / stride

/-- What `glDrawElements` needs of the buffers `Update` uploads: triangles of twelve floats a
vertex, three indices a triangle, and lines of seven floats a vertex, two indices a line. -/
structure BuffersValid (r : MechRender) : Prop where
  triangles : IndexedBy 12 3 r.triangleData r.triangleIndices
  lines : IndexedBy 7 2 r.lineData r.lineIndices

section Buffers

variable {stride group : ℕ} {data values : List ℚ} {indices added : List UInt32} {i : UInt32}

private theorem toNat_ofNat_le (n : ℕ) : (UInt32.ofNat n).toNat ≤ n := by
  simp only [UInt32.toNat, UInt32.ofNat, BitVec.toNat_ofNat]
  exact Nat.mod_le _ _

theorem named_append (named : i.toNat < data.length / stride) :
    i.toNat < (data ++ values).length / stride :=
  named.trans_le (Nat.div_le_div_right (by simp))

/-- The number `pushVertex` gives names the vertex it appends. -/
theorem pushVertex_named (full : values.length = stride) (positive : 0 < stride) :
    (pushVertex stride data values).1.toNat < (pushVertex stride data values).2.length / stride := by
  simp only [pushVertex, List.length_append, full, Nat.add_div_right _ positive]
  exact Nat.lt_succ_of_le (toNat_ofNat_le _)

theorem IndexedBy.append (indexed : IndexedBy stride group data indices)
    (full : values.length = stride) : IndexedBy stride group (data ++ values) indices where
  whole := by rw [List.length_append, full]; exact Nat.dvd_add indexed.whole (Nat.dvd_refl _)
  grouped := indexed.grouped
  named i member := named_append (indexed.named i member)

theorem IndexedBy.push (indexed : IndexedBy stride group data indices)
    (named : ∀ i ∈ added, i.toNat < data.length / stride) (grouped : group ∣ added.length) :
    IndexedBy stride group data (indices ++ added) where
  whole := indexed.whole
  grouped := by rw [List.length_append]; exact Nat.dvd_add indexed.grouped grouped
  named i member := (List.mem_append.mp member).elim (indexed.named i) (named i)

end Buffers

/-- `i` names a triangle vertex of `r`. -/
def MechRender.Names (r : MechRender) (i : UInt32) : Prop := i.toNat < r.triangleData.length / 12

/-- `i` names a line vertex of `r`. -/
def MechRender.LineNames (r : MechRender) (i : UInt32) : Prop := i.toNat < r.lineData.length / 7

section Valid

variable {r : MechRender}

theorem BuffersValid.withTransform (valid : BuffersValid r) (m : Mat4) :
    BuffersValid { r with transform := m } := ⟨valid.triangles, valid.lines⟩

theorem BuffersValid.pushTriangles (valid : BuffersValid r) {added : List UInt32}
    (named : ∀ i ∈ added, r.Names i) (grouped : 3 ∣ added.length) :
    BuffersValid { r with triangleIndices := r.triangleIndices ++ added } :=
  ⟨valid.triangles.push named grouped, valid.lines⟩

theorem BuffersValid.pushLines (valid : BuffersValid r) {added : List UInt32}
    (named : ∀ i ∈ added, r.LineNames i) (grouped : 2 ∣ added.length) :
    BuffersValid { r with lineIndices := r.lineIndices ++ added } :=
  ⟨valid.triangles, valid.lines.push named grouped⟩

end Valid

namespace MechRender

variable {libm : Libm} {r : MechRender}

private theorem foldl_keeps {β : Type} {P : MechRender → Prop} {f : MechRender → β → MechRender}
    (keeps : ∀ r b, P r → P (f r b)) : ∀ (l : List β) r, P r → P (l.foldl f r)
  | [], _, holds => holds
  | b :: l, r, holds => foldl_keeps keeps l (f r b) (keeps r b holds)

private theorem valid_ite {c : Prop} [Decidable c] {a b : MechRender} (valid : BuffersValid a)
    (valid' : BuffersValid b) : BuffersValid (if c then a else b) := by
  split <;> assumption

theorem addVertex_valid (valid : BuffersValid r) {p1In normal : Vec3} {uv : Vec2} {rgba : Vec4} :
    BuffersValid (r.addVertex p1In normal uv rgba).2 :=
  ⟨valid.triangles.append rfl, valid.lines⟩

/-- The number `AddVertex` returns names the vertex it appends. -/
theorem addVertex_names {p1In normal : Vec3} {uv : Vec2} {rgba : Vec4} :
    (r.addVertex p1In normal uv rgba).2.Names (r.addVertex p1In normal uv rgba).1 :=
  pushVertex_named rfl (by decide)

theorem Names.addVertex {i : UInt32} (named : r.Names i) {p1In normal : Vec3} {uv : Vec2}
    {rgba : Vec4} : (r.addVertex p1In normal uv rgba).2.Names i :=
  named_append named

theorem addLineVertex_valid (valid : BuffersValid r) {p1In : Vec3} {rgba : Vec4} :
    BuffersValid (r.addLineVertex p1In rgba).2 :=
  ⟨valid.triangles, valid.lines.append rfl⟩

/-- The number `AddLineVertex` returns names the vertex it appends. -/
theorem addLineVertex_names {p1In : Vec3} {rgba : Vec4} :
    (r.addLineVertex p1In rgba).2.LineNames (r.addLineVertex p1In rgba).1 :=
  pushVertex_named rfl (by decide)

theorem LineNames.addLineVertex {i : UInt32} (named : r.LineNames i) {p1In : Vec3}
    {rgba : Vec4} : (r.addLineVertex p1In rgba).2.LineNames i :=
  named_append named

theorem addTriangle_valid (valid : BuffersValid r) {p1 p2 p3 : Vec3} {rgba : Vec4} :
    BuffersValid (r.addTriangle p1 p2 p3 rgba) := by
  unfold addTriangle
  refine (addVertex_valid (addVertex_valid (addVertex_valid valid))).pushTriangles ?_ ⟨1, rfl⟩
  simp only [List.mem_cons, List.not_mem_nil, or_false]
  rintro i (rfl | rfl | rfl)
  · exact addVertex_names.addVertex.addVertex
  · exact addVertex_names.addVertex
  · exact addVertex_names

theorem addQuad_valid (valid : BuffersValid r) {p1 p2 p3 p4 : Vec3} {rgba : Vec4} :
    BuffersValid (r.addQuad libm p1 p2 p3 p4 rgba) := by
  unfold addQuad
  refine (addVertex_valid (addVertex_valid (addVertex_valid (addVertex_valid valid)))).pushTriangles
    ?_ ⟨2, rfl⟩
  simp only [List.mem_cons, List.not_mem_nil, or_false]
  rintro i (rfl | rfl | rfl | rfl | rfl | rfl)
  · exact addVertex_names.addVertex.addVertex.addVertex
  · exact addVertex_names.addVertex.addVertex
  · exact addVertex_names.addVertex
  · exact addVertex_names.addVertex
  · exact addVertex_names
  · exact addVertex_names.addVertex.addVertex.addVertex

theorem addLineSegment_valid (valid : BuffersValid r) {p1 p2 : Vec3} {rgba : Vec4} :
    BuffersValid (r.addLineSegment p1 p2 rgba) := by
  unfold addLineSegment
  refine (addLineVertex_valid (addLineVertex_valid valid)).pushLines ?_ ⟨1, rfl⟩
  simp only [List.mem_cons, List.not_mem_nil, or_false]
  rintro i (rfl | rfl)
  · exact addLineVertex_names.addLineVertex
  · exact addLineVertex_names

theorem addBall_valid (valid : BuffersValid r) {center : Vec3} {radius : ℚ} {rgba : Vec4} :
    BuffersValid (r.addBall center radius rgba) :=
  foldl_keeps (P := BuffersValid) (fun _ _ valid => addTriangle_valid valid) _ r valid

theorem addBox_valid (valid : BuffersValid r) {center length width height : Vec3} {rgba : Vec4} :
    BuffersValid (r.addBox libm center length width height rgba) :=
  addQuad_valid (addQuad_valid (addQuad_valid (addQuad_valid (addQuad_valid (addQuad_valid valid)))))

/-- A side of the disc keeps the buffers valid and the centre vertex named. -/
theorem groundSide_valid {l maxZL : ℚ} {normal : Vec3} {uv : Vec2} {rgba : Vec4} {ic : UInt32}
    (valid : BuffersValid r) (named : r.Names ic) (i : ℕ) :
    BuffersValid (groundSide libm l maxZL normal uv rgba ic r i) ∧
      (groundSide libm l maxZL normal uv rgba ic r i).Names ic := by
  unfold groundSide
  refine ⟨(addVertex_valid (addVertex_valid valid)).pushTriangles ?_ ⟨1, rfl⟩,
    named.addVertex.addVertex⟩
  simp only [List.mem_cons, List.not_mem_nil, or_false]
  rintro i (rfl | rfl | rfl)
  · exact addVertex_names.addVertex
  · exact addVertex_names
  · exact named.addVertex.addVertex

theorem drawGround_valid (valid : BuffersValid r) {feet : List Vec3} {tfLB : Mat3} :
    BuffersValid (r.drawGround libm feet tfLB) :=
  (foldl_keeps (P := fun s => BuffersValid s ∧ s.Names _)
    (fun _ i holds => groundSide_valid holds.1 holds.2 i) _ _
    ⟨addVertex_valid (valid_ite valid (valid.withTransform _)), addVertex_names⟩).1

theorem drawLegs_valid (valid : BuffersValid r) {legs : List Leg} {radius : ℚ} {rgba : Vec4} :
    BuffersValid (r.drawLegs legs radius rgba) :=
  foldl_keeps (P := BuffersValid) (fun _ _ valid => addLineSegment_valid (addBall_valid valid))
    legs r valid

private theorem drawGround_when (valid : BuffersValid r) (c : Bool) {feet : List Vec3}
    {tfLB : Mat3} : BuffersValid (if c then r.drawGround libm feet tfLB else r) :=
  valid_ite (drawGround_valid valid) valid

private theorem drawLegs_when (valid : BuffersValid r) (c : Bool) {legs : List Leg} {radius : ℚ}
    {rgba : Vec4} : BuffersValid (if c then r.drawLegs legs radius rgba else r) :=
  valid_ite (drawLegs_valid valid) valid

theorem drawMech_valid (valid : BuffersValid r) {actual command : List Leg} {tfLB : Mat3} :
    BuffersValid (r.drawMech libm actual command tfLB) :=
  (drawLegs_when (drawLegs_when (addBox_valid ((drawGround_when valid _).withTransform _)) _)
    _).withTransform _

theorem clear_valid : BuffersValid r.clear :=
  ⟨⟨Nat.dvd_zero _, Nat.dvd_zero _, by simp [clear]⟩, ⟨Nat.dvd_zero _, Nat.dvd_zero _, by simp [clear]⟩⟩

/-- Each of `Update`'s uploads is valid, whether or not `Render` draws the mech. -/
theorem update_valid (r : MechRender) :
    ∀ mech : Option (List Leg × List Leg × Mat3), BuffersValid (r.update libm mech)
  | none => clear_valid
  | some _ => drawMech_valid clear_valid

theorem draw_valid (valid : BuffersValid r) (call : Draw) : BuffersValid (r.draw libm call) := by
  cases call <;> simp only [draw]
  · exact drawGround_valid valid
  · exact addBox_valid valid
  · exact addBall_valid valid
  · exact addQuad_valid valid
  · exact addTriangle_valid valid
  · exact addLineSegment_valid valid

/-- Every sequence of drawing calls from the buffers `Update` clears leaves whole vertices in
both data buffers, whole primitives in both index buffers, and every index below the number of
vertices of its buffer, with no bound on how many vertices the calls add. -/
theorem draws_keep_buffers_valid (libm : Libm) (r : MechRender) (calls : List Draw) :
    BuffersValid (calls.foldl (draw libm) r.clear) :=
  foldl_keeps (P := BuffersValid) (fun _ call valid => draw_valid valid call) calls _ clear_valid

end MechRender

end Mjmech.Tplot
