import HintScript.Proofs.Channel

/-! Commitments bind their components, however many there are.

A component is written in a few bytes, and every component but the last is joined to a digest. So
where two lists with one commitment both go on, the strings hashed for them are cut apart at the
digest; and where one of them ends, the string hashed for it is too short to be hashed for the other.
-/

set_option autoImplicit false

namespace HintScript

open Number

theorem injOn_of_subset {H : Bytes → Bytes} {as as' bs bs' : List Bytes}
    (h : Set.InjOn H {x | x ∈ as ++ bs}) (ha : as' ⊆ as) (hb : bs' ⊆ bs) :
    Set.InjOn H {x | x ∈ as' ++ bs'} := by
  refine h.mono fun x hx => ?_
  exact List.mem_append.mpr ((List.mem_append.mp hx).imp (ha ·) (hb ·))

theorem length_lt_of_mem_map_encode {cs : List Int} (hc : ∀ v ∈ cs, 0 ≤ v ∧ v ≤ modulus - 1) :
    ∀ y ∈ cs.map encode, y.length < digestSize := by
  intro y hy
  obtain ⟨v, hv, rfl⟩ := List.mem_map.mp hy
  have hb := hc v hv
  unfold modulus at hb
  have hle : width v ≤ 4 := width_le_four (by omega)
  rw [length_encode, digestSize]
  omega

namespace Commitment

/-- The strings that are hashed for a nest, the outermost first. -/
def hashed (H : Bytes → Bytes) : List Bytes → List Bytes
  | [] => []
  | [x] => [x]
  | x :: y :: rest => (x ++ nest H (y :: rest)) :: hashed H (y :: rest)

section

variable {H : Bytes → Bytes}

/-- What is hashed for a last item is too short to end in a digest. -/
theorem ne_append_nest (hH : ∀ data, (H data).length = digestSize) {x : Bytes}
    (hx : x.length < digestSize) (y : Bytes) {ys : List Bytes} (hys : ys ≠ []) :
    x ≠ y ++ nest H ys := by
  intro he
  have hlen := congrArg List.length he
  rw [List.length_append, length_nest hH hys] at hlen
  omega

/-- Items with the same nest are the same. They may differ in length, and so may the two lists: what
stands after an item is a digest, and no item is as long as one. -/
theorem nest_injOn (hH : ∀ data, (H data).length = digestSize) {xs ys : List Bytes} (hx : xs ≠ [])
    (hy : ys ≠ []) (hxs : ∀ x ∈ xs, x.length < digestSize) (hys : ∀ y ∈ ys, y.length < digestSize)
    (hinj : Set.InjOn H {z | z ∈ hashed H xs ++ hashed H ys}) (h : nest H xs = nest H ys) :
    xs = ys := by
  induction xs generalizing ys with
  | nil => exact absurd rfl hx
  | cons x xs ih =>
    obtain ⟨y, ys, rfl⟩ := List.exists_cons_of_ne_nil hy
    rw [List.forall_mem_cons] at hxs hys
    cases xs with
    | nil =>
      cases ys with
      | nil => rw [hinj (by simp [hashed]) (by simp [hashed]) h]
      | cons y' ys =>
        have he : x = y ++ nest H (y' :: ys) := hinj (by simp [hashed]) (by simp [hashed]) h
        exact absurd he (ne_append_nest hH hxs.1 y (List.cons_ne_nil _ _))
    | cons x' xs =>
      cases ys with
      | nil =>
        have he : x ++ nest H (x' :: xs) = y := hinj (by simp [hashed]) (by simp [hashed]) h
        exact absurd he.symm (ne_append_nest hH hys.1 x (List.cons_ne_nil _ _))
      | cons y' ys =>
        have he : x ++ nest H (x' :: xs) = y ++ nest H (y' :: ys) :=
          hinj (by simp [hashed]) (by simp [hashed]) h
        have hwide : (nest H (x' :: xs)).length = (nest H (y' :: ys)).length := by
          rw [length_nest hH (by simp), length_nest hH (by simp)]
        obtain ⟨rfl, hrest⟩ := List.append_inj' he hwide
        have hinner := injOn_of_subset hinj (List.subset_cons_self _ _) (List.subset_cons_self _ _)
        rw [ih (by simp) (by simp) hxs.2 hys.2 hinner hrest]

end

/-- Components can be committed to, and lists of them with the same commitment are the same, whatever
their lengths, if the hash tells the strings apart that are hashed for the two. -/
theorem ofComponents_binds {h : Hasher} (hw : h.Wide) {xs ys : List Int} (hx : xs ≠ [])
    (hy : ys ≠ []) (hxs : ∀ v ∈ xs, 0 ≤ v ∧ v ≤ modulus - 1)
    (hys : ∀ v ∈ ys, 0 ≤ v ∧ v ≤ modulus - 1) :
    ∃ c c', ofComponents h xs = .ok c ∧ ofComponents h ys = .ok c' ∧
      (c = c' → Set.InjOn h.digest
          {z | z ∈ hashed h.digest (xs.map encode) ++ hashed h.digest (ys.map encode)} →
        xs = ys) := by
  obtain ⟨c, hc, hdigest⟩ := ofComponents_digest hw hx
  obtain ⟨c', hc', hdigest'⟩ := ofComponents_digest hw hy
  refine ⟨c, c', hc, hc', ?_⟩
  rintro rfl hinj
  have hnest : nest h.digest (xs.map encode) = nest h.digest (ys.map encode) :=
    hdigest.symm.trans hdigest'
  have hitems := nest_injOn hw (by simpa using hx) (by simpa using hy)
    (length_lt_of_mem_map_encode hxs) (length_lt_of_mem_map_encode hys) hinj hnest
  exact List.map_injective_iff.mpr (fun _ _ => encode_injective) hitems

theorem ofComponents_binds_longer :
    let h : Hasher := ⟨.sha256, fun x => List.replicate 32 (x.headD 0 + 1 + UInt8.ofNat x.length)⟩
    let xs : List Int := [2147483646]
    let ys : List Int := [2147483646, 0]
    Set.InjOn h.digest
      {z | z ∈ hashed h.digest (xs.map encode) ++ hashed h.digest (ys.map encode)} ∧
    ∃ c c', ofComponents h xs = .ok c ∧ ofComponents h ys = .ok c' ∧ c ≠ c' := by
  intro h xs ys
  have hnodup : ((hashed h.digest (xs.map encode) ++ hashed h.digest (ys.map encode)).map
      h.digest).Nodup := by decide
  have hinj : Set.InjOn h.digest
      {z | z ∈ hashed h.digest (xs.map encode) ++ hashed h.digest (ys.map encode)} :=
    fun x hx y hy => List.inj_on_of_nodup_map hnodup hx hy
  obtain ⟨c, c', hc, hc', hbinds⟩ := ofComponents_binds (h := h) (fun _ => List.length_replicate)
    (List.cons_ne_nil 2147483646 []) (List.cons_ne_nil 2147483646 [0]) (by decide) (by decide)
  refine ⟨hinj, c, c', hc, hc', fun he => ?_⟩
  cases hbinds he hinj

end Commitment

namespace QM31

theorem items_injective {x y : QM31} (h : x.items = y.items) : x = y := by
  have hcomponents : x.components = y.components :=
    List.map_injective_iff.mpr (fun _ _ => encode_injective) h
  simp only [components, CM31.components, List.cons_append, List.nil_append, List.cons.injEq,
    Int.natCast_inj, and_true] at hcomponents
  obtain ⟨ha, hb, hc, hd⟩ := hcomponents
  exact QM31.ext (CM31.ext (Fin.ext ha) (Fin.ext hb)) (CM31.ext (Fin.ext hc) (Fin.ext hd))

open Commitment in
theorem eq_of_nest {H : Bytes → Bytes} (hH : ∀ data, (H data).length = digestSize) {x y : QM31}
    (hinj : Set.InjOn H {z | z ∈ hashed H x.items ++ hashed H y.items})
    (h : nest H x.items = nest H y.items) : x = y := by
  have hshort (x : QM31) : ∀ z ∈ x.items, z.length < digestSize := by
    refine length_lt_of_mem_map_encode fun v hv => ?_
    have hb := x.components_bounds v hv
    unfold modulus
    omega
  exact items_injective
    (nest_injOn hH x.items_ne_nil y.items_ne_nil (hshort x) (hshort y) hinj h)

end QM31

end HintScript
