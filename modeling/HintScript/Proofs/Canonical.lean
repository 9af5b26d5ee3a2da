import HintScript.Proofs.Malleability
import Mathlib.Data.Set.List

/-! Proofs behind the pushes of a run that succeeds.

The script hashes the items of the claimed value and of the leaves and reads none of them as a
number. So a run that succeeds comes from a proof that the verifier accepts exactly if these items
are written as a proof writes them: each the encoding of a component.
-/

set_option autoImplicit false

namespace HintScript

open Number Script Commitment

namespace QM31

def IsComponent (y : Bytes) : Prop := ∃ v : Int, (0 ≤ v ∧ v < modulus) ∧ encode v = y

theorem isComponent_of_mem {x : QM31} {y : Bytes} (hy : y ∈ x.items) : IsComponent y := by
  obtain ⟨v, hv, rfl⟩ := List.mem_map.mp hy
  exact ⟨v, x.components_bounds v hv, rfl⟩

theorem exists_items {ys : List Bytes} (hlen : ys.length = 4) (hy : ∀ y ∈ ys, IsComponent y) :
    ∃ x : QM31, x.items = ys := by
  obtain ⟨a, b, c, d, rfl⟩ := List.length_eq_four.mp hlen
  simp only [List.forall_mem_cons] at hy
  obtain ⟨⟨a, ha, rfl⟩, ⟨b, hb, rfl⟩, ⟨c, hc, rfl⟩, ⟨d, hd, rfl⟩, -⟩ := hy
  have hbounds : ∀ v ∈ [a, b, c, d], 0 ≤ v ∧ v < 2 ^ 31 - 1 :=
    List.forall_mem_cons.mpr ⟨ha, List.forall_mem_cons.mpr ⟨hb, List.forall_mem_cons.mpr
      ⟨hc, List.forall_mem_cons.mpr ⟨hd, List.forall_mem_nil _⟩⟩⟩⟩
  refine ⟨ofInts a b c d, ?_⟩
  rw [items, components_ofInts_of_bounds hbounds]
  rfl

end QM31

theorem Hint.items_inj {a b : Hint} (hlen : a.units.length = b.units.length)
    (h : a.items = b.items) : a = b := by
  obtain ⟨units, tail⟩ := a
  obtain ⟨units', tail'⟩ := b
  obtain ⟨rfl, htail⟩ := List.append_inj h hlen
  cases htail
  rfl

namespace QueryPhase

namespace Block

theorem items_inj {c : Config} {a b : Block} (ha : a.Shaped c) (hb : b.Shaped c)
    (h : a.items = b.items) : a = b := by
  obtain ⟨leaf, siblings⟩ := a
  obtain ⟨leaf', siblings'⟩ := b
  obtain ⟨rfl, rfl⟩ := List.append_inj h (ha.leaf.trans hb.leaf.symm)
  rfl

theorem flatMap_items_inj {c : Config} {as bs : List Block} (ha : ∀ b ∈ as, b.Shaped c)
    (hb : ∀ b ∈ bs, b.Shaped c) (hlen : as.length = bs.length)
    (h : as.flatMap items = bs.flatMap items) : as = bs := by
  -- blocks have one length, so a list of them is read in one way
  induction as generalizing bs with
  | nil => exact (List.length_eq_zero_iff.mp hlen.symm).symm
  | cons a as ih =>
    obtain ⟨b, bs, rfl⟩ := List.exists_cons_of_length_eq_add_one hlen.symm
    obtain ⟨ha, has⟩ := List.forall_mem_cons.mp ha
    obtain ⟨hb, hbs⟩ := List.forall_mem_cons.mp hb
    rw [List.length_cons, List.length_cons, Nat.add_right_cancel_iff] at hlen
    have hitems : a.items.length = b.items.length := by
      simp only [items, List.length_append, ha.leaf, ha.siblings, hb.leaf, hb.siblings]
    obtain ⟨hfirst, hrest⟩ := List.append_inj h hitems
    rw [items_inj ha hb hfirst, ih has hbs hlen hrest]

theorem exists_ofOpening {b : Block} (hlen : b.leaf.length = 4)
    (hleaf : ∀ y ∈ b.leaf, QM31.IsComponent y) : ∃ o, ofOpening o = b := by
  obtain ⟨x, hx⟩ := QM31.exists_items hlen hleaf
  refine ⟨⟨x, b.siblings⟩, ?_⟩
  rw [ofOpening, hx]

end Block

namespace Hints

variable {c : Config}

/-- The items of field elements encode components. -/
structure Canonical (x : Hints c) : Prop where
  claimed : ∀ y ∈ x.claimed, QM31.IsComponent y
  leaves : ∀ b ∈ x.blocks, ∀ y ∈ b.leaf, QM31.IsComponent y

theorem items_injective {x y : Hints c} (h : x.items = y.items) : x = y := by
  have hshaped (z : Hints c) : ∀ b ∈ z.blocks.reverse, b.Shaped c :=
    fun b hb => z.blocks_shaped b (List.mem_reverse.mp hb)
  have hcount (z : Hints c) : z.blocks.reverse.length = queryCount := by
    rw [List.length_reverse, z.blocks_length]
  have hunits (a b : Hint) (hu : a.units.length = b.units.length) :
      a.items.length = b.items.length := by
    rw [Hint.items, Hint.items, List.length_append, List.length_append, hu]
    rfl
  have halpha := x.alpha_units.trans y.alpha_units.symm
  have hqueries := x.queries_units.trans y.queries_units.symm
  simp only [items, List.append_assoc] at h
  obtain ⟨hroot, h⟩ := List.append_inj h rfl
  obtain ⟨ha, h⟩ := List.append_inj h (hunits _ _ halpha)
  obtain ⟨hclaimed, h⟩ := List.append_inj h (x.claimed_length.trans y.claimed_length.symm)
  obtain ⟨hwork, h⟩ := List.append_inj h (x.length_workItems.trans y.length_workItems.symm)
  obtain ⟨hq, h⟩ := List.append_inj h (hunits _ _ hqueries)
  have hblocks := Block.flatMap_items_inj (hshaped x) (hshaped y)
    ((hcount x).trans (hcount y).symm) h
  simp only [workItems, List.cons.injEq] at hwork
  obtain ⟨hnonce, hsuffix, hmsb⟩ := hwork
  have hmsb := congrArg List.head? hmsb
  rw [Option.head?_toList, Option.head?_toList] at hmsb
  cases x
  cases y
  rw [mk.injEq]
  exact ⟨List.singleton_inj.mp hroot, Hint.items_inj halpha ha, hclaimed, hnonce, hsuffix, hmsb,
    Hint.items_inj hqueries hq, List.reverse_injective hblocks⟩

/-- Canonical items, with a leading byte that can be read, are those of a proof. -/
theorem exists_proof {x : Hints c} (hx : x.Canonical) {msb : Option Int}
    (hmsb : Work.readMsb x.msb = some msb) : ∃ (p : Proof) (hp : p.Shaped c), p.hints hp = x := by
  have hmsb := Work.eq_map_of_readMsb hmsb
  obtain ⟨claimed, hclaimed⟩ := QM31.exists_items x.claimed_length hx.claimed
  have hopenings : x.blocks ∈ Set.range (List.map Block.ofOpening) := by
    rw [Set.range_list_map]
    exact fun b hb => Block.exists_ofOpening (x.blocks_shaped b hb).leaf (hx.leaves b hb)
  obtain ⟨openings, hopenings⟩ := hopenings
  let p : Proof := ⟨x.root, x.alpha, claimed, x.nonce, ⟨x.suffix, msb⟩, x.queries, openings⟩
  have hp : p.Shaped c := by
    have hisSome := x.msb_isSome
    have hcount := x.blocks_length
    rw [hmsb, Option.isSome_map] at hisSome
    rw [← hopenings, List.length_map] at hcount
    refine ⟨x.alpha_units, x.queries_units, hisSome, hcount, ?_⟩
    intro o ho
    have hblock : Block.ofOpening o ∈ x.blocks := hopenings ▸ List.mem_map_of_mem ho
    exact (x.blocks_shaped _ hblock).siblings
  refine ⟨p, hp, ?_⟩
  cases x
  cases hclaimed
  cases hmsb
  cases hopenings
  rfl

end Hints

section

variable {h : Hasher} {c : Config} {p : Proof}

theorem Proof.hints_canonical (hp : p.Shaped c) : (p.hints hp).Canonical := by
  refine ⟨fun y hy => QM31.isComponent_of_mem hy, ?_⟩
  intro b hb y hy
  obtain ⟨o, -, rfl⟩ := List.mem_map.mp hb
  exact QM31.isComponent_of_mem (x := o.leaf) hy

theorem Proof.shaped_of_verify (hw : h.Wide) {log log' : List Warning}
    (hv : verify h c p log = .ok true log') : p.Shaped c := by
  obtain ⟨hcount, queries, t, ht, hlen, hpaths⟩ := exists_of_verify hw hv
  obtain ⟨⟨x, hx⟩, next, hwork, hq, -⟩ := (transcript_eq_ok_iff hw).mp ht
  obtain ⟨values, hvalues⟩ := Extraction.exists_unpack_of_unpackElement hx
  obtain ⟨trimmed, htrimmed, -⟩ := Extraction.unpackQueries_eq_ok_iff.mp hq
  obtain ⟨middle, hmiddle, -⟩ := Work.exists_middle_of_verify hw hwork
  refine ⟨Extraction.units_of_unpack hvalues, Extraction.units_of_unpack htrimmed, ?_, hcount,
    forall_of_forall_zip (by omega) fun q hmem => (hpaths q hmem).siblings⟩
  rcases Work.middle_cases hmiddle with ⟨hr, hm, -⟩ | ⟨hr, v, hm, -⟩
  · simp [hr, hm]
  · simp [hr, hm]

theorem pushes_injective {xs ys : List Bytes} (h : pushes xs = pushes ys) : xs = ys :=
  List.map_injective_iff.mpr (fun _ _ he => Item.push.inj he) h

theorem canonical_of_verify (hw : h.Wide) {x : Hints c} {log log' : List Warning}
    (hs : p.script = pushes x.items) (hv : verify h c p log = .ok true log') : x.Canonical := by
  have hp := Proof.shaped_of_verify hw hv
  rw [p.script_eq_pushes hp] at hs
  rw [← Hints.items_injective (pushes_injective hs)]
  exact p.hints_canonical hp

/-- Whatever is pushed, a run that succeeds has been given items that are read in one way, and they
are those of a proof that the verifier accepts exactly if they are canonical. -/
theorem proof_of_success_iff {h : Hasher} (ho : h.opcode = .sha256) (hw : h.Wide) (c : Config)
    {hs : List Bytes} (hok : (execute ⟨h, {}⟩ (pushes hs ++ script h c)).success = true)
    (log : List Warning) :
    (∃! x : Hints c, x.items = hs) ∧ ∀ x : Hints c, x.items = hs →
      ((∃ p : Proof, p.script = pushes hs ∧ ∃ log', verify h c p log = .ok true log') ↔
        x.Canonical) := by
  obtain ⟨o, H⟩ := h
  obtain rfl : o = .sha256 := ho
  obtain ⟨x, rfl, -⟩ := accepted_of_success hw hok
  refine ⟨⟨x, rfl, fun y hy => Hints.items_injective hy⟩, ?_⟩
  intro y hy
  obtain rfl := Hints.items_injective hy
  constructor
  · rintro ⟨p, hp, log', hv⟩
    exact canonical_of_verify hw hp hv
  · intro hcanonical
    obtain ⟨hitems, haccepted, -⟩ := (success_iff hw y).mp hok
    obtain ⟨msb, hmsb, -⟩ := haccepted.work
    obtain ⟨p, hp, rfl⟩ := Hints.exists_proof hcanonical hmsb
    obtain ⟨hpasses, -⟩ := (accepted_hints_iff hw hp).mp ⟨hitems, haccepted⟩
    exact ⟨p, p.script_eq_pushes hp, log, (verify_eq_ok_true_iff hw hp).mpr ⟨hpasses, rfl⟩⟩

end

theorem proof_of_success_iff_ones :
    let hs := (onesHints (QM31.ofInts 0 2 3 4).items (QM31.ofInts 5 0 0 6).items rfl rfl).items
    (execute ⟨onesHasher, {}⟩ (pushes hs ++ script onesHasher onesConfig)).success = true ∧
      ∃ p : Proof, p.script = pushes hs ∧
        ∃ log, verify onesHasher onesConfig p [] = .ok true log := by
  intro hs
  have hok := success_onesHints (QM31.ofInts 0 2 3 4).items (QM31.ofInts 5 0 0 6).items rfl rfl
    (by decide)
  have hiff := (proof_of_success_iff rfl (fun _ => rfl) onesConfig hok []).2 _ rfl
  refine ⟨hok, hiff.mpr ⟨fun y hy => QM31.isComponent_of_mem hy, ?_⟩⟩
  intro b hb y hy
  rw [List.eq_of_mem_replicate hb] at hy
  exact QM31.isComponent_of_mem hy

/-- The script accepts a claimed value whose first item is the byte 00. No proof pushes it: zero is
encoded as the empty string. -/
theorem success_without_proof :
    let hs := (onesHints [[0], [2], [3], [4]] [[5], [], [], [6]] rfl rfl).items
    (execute ⟨onesHasher, {}⟩ (pushes hs ++ script onesHasher onesConfig)).success = true ∧
      ¬ ∃ p : Proof, p.script = pushes hs ∧
        ∃ log log', verify onesHasher onesConfig p log = .ok true log' := by
  intro hs
  refine ⟨success_onesHints _ _ rfl rfl (by decide), ?_⟩
  rintro ⟨p, hp, log, log', hv⟩
  have hcanonical := canonical_of_verify (fun _ => rfl) hp hv
  obtain ⟨v, -, hzero⟩ := hcanonical.claimed [0] (.head _)
  have hminimal := isMinimal_encode v
  rw [hzero] at hminimal
  cases hminimal

end QueryPhase

end HintScript
