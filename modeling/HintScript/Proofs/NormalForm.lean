import HintScript.Proofs.Wire
import HintScript.QueryPhase

set_option autoImplicit false

namespace HintScript

open Script

theorem Script.fetch_normal : fetch.Normal := normal_ops rfl

theorem Word.script_normal : Word.script.Normal := by decide

theorem Word.canonicalScript_normal : Word.canonicalScript.Normal := normal_ops rfl

namespace BitOrder

theorem lowScript_normal (w : Width) : (lowScript w).Normal :=
  have hle := w.le
  .append (.append (.append (.append (normal_ops rfl) (normal_power (by omega)))
    (.times _ (normal_ops rfl))) (normal_ops rfl)) (.times _ (normal_ops rfl))

theorem highBits_normal {shift k : Nat} (h : shift + k ≤ 31) : (highBits shift k).Normal := by
  induction k with
  | zero => exact normal_nil
  | succ k ih =>
    have htop : (num (1 <<< (shift + k) : Nat)).Normal := normal_power (by omega)
    have hbit : (num (1 <<< k : Nat)).Normal := normal_power (by omega)
    exact .append (.append (.append (.append (.append (.append (.append (normal_ops rfl) htop)
      (normal_ops rfl)) htop) (normal_ops rfl)) hbit) (normal_ops rfl)) (ih (by omega))

theorem highScript_normal (w : Width) : (highScript w).Normal :=
  have hle := w.le
  .append (.append (.append (normal_bytes (by decide)) (normal_ops rfl))
    (highBits_normal (by omega))) (normal_ops rfl)

theorem script_normal (order : BitOrder) (w : Width) : (order.script w).Normal := by
  unfold script
  split
  · exact normal_nil
  · cases order with
    | low => exact lowScript_normal w
    | high => exact highScript_normal w

end BitOrder

namespace Extraction

theorem reverseScript_normal {k : Nat} (h : k < 2 ^ 38) : (reverseScript k).Normal := by
  induction k with
  | zero => exact normal_nil
  | succ k ih =>
    refine .append (ih (by omega)) ?_
    split
    · exact normal_ops rfl
    · exact .append (normal_num (by omega)) (normal_ops rfl)

theorem script_normal (n : WordCount) : (Extraction.script n).Normal :=
  have hle := n.le
  .append (.append (.append (.append (.append (.times _ fetch_normal)
    (.times _ (.append (.append (normal_num (by omega)) (normal_ops rfl)) Word.script_normal)))
    (.times _ (normal_ops rfl))) (normal_ops rfl))
    (.times _ (.append (normal_ops rfl) Word.canonicalScript_normal)))
    (reverseScript_normal (by omega))

theorem queriesScript_normal (w : Width) (order : BitOrder) : (queriesScript w order).Normal :=
  .append (.append (script_normal .five)
    (.times 5 (.append (order.script_normal w) (normal_ops rfl)))) (.times 5 (normal_ops rfl))

end Extraction

namespace Merkle

theorem rangeScript_normal (w : Width) : (rangeScript w).Normal := by
  have hle := w.le
  refine .append (.append (normal_ops rfl) (normal_num (by decide))) ?_
  split
  · exact normal_ops rfl
  · exact .append (normal_power (by omega)) (normal_ops rfl)

theorem bitsDown_normal {k : Nat} (h : k ≤ 31) : (bitsDown k).Normal := by
  induction k with
  | zero => exact normal_nil
  | succ k ih =>
    have hbit : (num (1 <<< (k + 1) : Nat)).Normal := normal_power (by omega)
    exact .append (.append (.append (.append (.append (normal_ops rfl) hbit) (normal_ops rfl)) hbit)
      (normal_ops rfl)) (ih (by omega))

theorem bitsScript_normal (w : Width) : (bitsScript w).Normal :=
  have hle := w.le
  .append (.append (rangeScript_normal w) (bitsDown_normal (by omega))) (normal_ops rfl)

end Merkle

namespace Work

theorem msbScript_normal (d : Difficulty) : (msbScript d).Normal := by
  have hbound : (num d.msbBound).Normal := normal_power (by omega)
  exact .append (.append (.append (.append (.append (.append (.append fetch_normal (normal_ops rfl))
    (normal_num (by decide))) hbound) (normal_ops rfl)) (normal_ops rfl))
    (normal_bytes (by decide)))
    (normal_ops rfl)

theorem zerosScript_normal (d : Difficulty) : (zerosScript d).Normal := by
  have hle := d.le
  refine .append (normal_bytes ?_) (normal_ops rfl)
  rw [List.length_replicate, Difficulty.whole]
  omega

end Work

/-! ### Scripts that hash -/

/-- Every item is normal or that of the hash, which may stand before the length of a push. -/
def Script.Plain (s : Script) (h : Hasher) : Prop := ∀ i ∈ s, i.Normal ∨ i = Item.ofOpcode h.opcode

namespace Script

variable {h : Hasher} {s t : Script}

theorem Normal.plain (hs : s.Normal) : s.Plain h := fun i hi => .inl (hs i hi)

theorem plain_hash : (hash h).Plain h := List.forall_mem_singleton.mpr (.inr rfl)

theorem Plain.append (hs : s.Plain h) (ht : t.Plain h) : (s ++ t).Plain h :=
  List.forall_mem_append.mpr ⟨hs, ht⟩

theorem Plain.times (n : Nat) (hs : s.Plain h) : (times n s).Plain h := by
  induction n with
  | zero => exact normal_nil.plain
  | succ n ih => exact hs.append ih

theorem Plain.normal (hs : s.Plain h) (hh : h.opcode.isPushData = false) : s.Normal := by
  intro i hi
  obtain hn | rfl := hs i hi
  · exact hn
  · exact Item.ofOpcode_normal hh

theorem Plain.fits (hs : s.Plain h) : s.Fits := by
  intro i hi
  obtain hn | rfl := hs i hi
  · exact hn.fits
  · exact Item.ofOpcode_fits _

end Script

section

variable {h : Hasher}

theorem Commitment.script_plain (k : Nat) : (Commitment.script h k).Plain h :=
  plain_hash.append (.times _ ((normal_ops rfl).plain.append plain_hash))

theorem Commitment.scriptFor_plain {k : Int} {s : Script} (hs : scriptFor h k = .ok s) :
    s.Plain h := by
  unfold scriptFor at hs
  split at hs <;> cases hs
  exact script_plain _

namespace Channel

theorem absorbScript_plain : (absorbScript h).Plain h := (normal_ops rfl).plain.append plain_hash

theorem absorbElementScript_plain : (absorbElementScript h).Plain h :=
  (Commitment.script_plain 4).append absorbScript_plain

theorem absorbElementsScript_plain (n : Nat) : (absorbElementsScript h n).Plain h :=
  .append (.times n ((Commitment.script_plain 4).append (normal_ops rfl).plain))
    (.times n ((normal_ops rfl).plain.append absorbScript_plain))

theorem absorbElementsScriptFor_plain {n : Int} {s : Script}
    (hs : absorbElementsScriptFor h n = .ok s) : s.Plain h := by
  unfold absorbElementsScriptFor at hs
  split at hs <;> cases hs
  exact absorbElementsScript_plain _

theorem drawScript_plain : (drawScript h).Plain h :=
  ((((normal_ops rfl).plain.append plain_hash).append (normal_ops rfl).plain).append
    (normal_bytes (by decide)).plain).append (normal_ops rfl).plain |>.append plain_hash

theorem squeezeElementScript_plain : (squeezeElementScript h).Plain h :=
  drawScript_plain.append (Extraction.script_normal .four).plain

theorem squeezeQueriesScript_plain (w : Width) (order : BitOrder) :
    (squeezeQueriesScript h w order).Plain h :=
  drawScript_plain.append (Extraction.queriesScript_normal w order).plain

end Channel

theorem Work.script_plain (d : Difficulty) : (Work.script h d).Plain h := by
  have hmsb : Normal (if d.rem = 0 then [] else msbScript d) := by
    split
    · exact normal_nil
    · exact msbScript_normal d
  have hzeros : Normal (if d.whole = 0 then [] else zerosScript d) := by
    split
    · exact normal_nil
    · exact zerosScript_normal d
  have hstart : Plain (ops [.dup] ++ hash h ++ ops [.toAlt] ++ fetch ++ ops [.cat] ++ hash h) h :=
    ((((normal_ops rfl).plain.append plain_hash).append (normal_ops rfl).plain).append
      fetch_normal.plain).append (normal_ops rfl).plain |>.append plain_hash
  exact ((hstart.append fetch_normal.plain).append hmsb.plain).append hzeros.plain |>.append
    (normal_ops rfl).plain

namespace Merkle

theorem pathScript_plain (w : Width) : (pathScript h w).Plain h :=
  ((bitsScript_normal w).plain.append
    (.times _ ((fetch_normal.append (normal_ops rfl)).plain.append plain_hash))).append
    (normal_ops rfl).plain

theorem openingScript_plain (w : Width) : (openingScript h w).Plain h := by
  have hstart : Normal (times 4 fetch ++ ops [.dup, .toAlt, .over1, .toAlt] ++ num 2 ++
      ops [.pick, .toAlt] ++ num 3 ++ ops [.pick, .toAlt]) :=
    .append (.append (.append (.append (.append (.times 4 fetch_normal) (normal_ops rfl))
      (normal_num (by decide))) (normal_ops rfl)) (normal_num (by decide))) (normal_ops rfl)
  exact ((hstart.plain.append (Commitment.script_plain 4)).append (normal_ops rfl).plain).append
    (pathScript_plain w) |>.append (Normal.times 4 (normal_ops rfl)).plain

end Merkle

namespace QueryPhase

theorem openScript_plain (c : Config) : (openScript h c).Plain h :=
  ((normal_ops rfl).plain.append (Merkle.openingScript_plain c.width)).append (normal_ops rfl).plain

theorem script_plain (c : Config) : (QueryPhase.script h c).Plain h := by
  have hseed : (bytes c.seed).Normal := normal_bytes (by rw [c.wide]; decide)
  have hroot : Plain (bytes c.seed ++ fetch ++ ops [.dup, .toAlt] ++ Channel.absorbScript h) h :=
    ((hseed.append fetch_normal).append (normal_ops rfl)).plain.append Channel.absorbScript_plain
  have halpha := (hroot.append Channel.squeezeElementScript_plain).append
    (normal_ops rfl : (ops [.drop2, .drop2]).Normal).plain
  have hclaimed := (halpha.append (Normal.times 4 fetch_normal).plain).append
    Channel.absorbElementScript_plain
  exact (((hclaimed.append (Work.script_plain c.difficulty)).append
    (Channel.squeezeQueriesScript_plain c.width c.order)).append
    (.times _ (openScript_plain c))).append (normal_ops rfl).plain

end QueryPhase

end

/-! ### All of them -/

/-- The scripts that check, each with the parameters it is asked for with. -/
inductive Gadget where
  | commit (k : Int)
  | word
  | canonical
  | trim (logn : Int) (order : BitOrder)
  | unpack (n : Int)
  | queries (logn : Int) (order : BitOrder)
  | start (digest : Bytes)
  | absorb
  | absorbElement
  | absorbElements (n : Int)
  | draw
  | squeezeElement
  | squeezeQueries (logn : Int) (order : BitOrder)
  | work (n : Int)
  | bits (depth : Int)
  | path (depth : Int)
  | opening (depth : Int)
  | queryPhase (c : QueryPhase.Config)

def Gadget.script (h : Hasher) : Gadget → Except Error Script
  | commit k => Commitment.scriptFor h k
  | word => .ok Word.script
  | canonical => .ok Word.canonicalScript
  | trim logn order => order.script <$> Width.ofLogn logn
  | unpack n => Extraction.script <$> WordCount.of n
  | queries logn order => (Extraction.queriesScript · order) <$> Width.ofLogn logn
  | start digest => Channel.startScript digest
  | absorb => .ok (Channel.absorbScript h)
  | absorbElement => .ok (Channel.absorbElementScript h)
  | absorbElements n => Channel.absorbElementsScriptFor h n
  | draw => .ok (Channel.drawScript h)
  | squeezeElement => .ok (Channel.squeezeElementScript h)
  | squeezeQueries logn order => (Channel.squeezeQueriesScript h · order) <$> Width.ofLogn logn
  | work n => Work.script h <$> Difficulty.of n
  | bits depth => Merkle.bitsScript <$> Width.ofDepth depth
  | path depth => Merkle.pathScript h <$> Width.ofDepth depth
  | opening depth => Merkle.openingScript h <$> Width.ofDepth depth
  | queryPhase c => .ok (QueryPhase.script h c)

/-- What a prover pushes for a script to check. -/
inductive Offer where
  | hint (x : Hint)
  | work (w : Work.Witness) (nonce : Bytes)
  | siblings (o : Merkle.Opening)
  | opening (o : Merkle.Opening)
  | proof (p : QueryPhase.Proof)

def Offer.script : Offer → Script
  | hint x => x.script
  | work w nonce => w.script nonce
  | siblings o => o.siblingsScript
  | opening o => o.script
  | proof p => p.script

theorem Channel.startScript_normal {digest : Bytes} {s : Script}
    (h : startScript digest = .ok s) : s.Normal := by
  unfold startScript start at h
  split at h
  · rename_i hwide
    cases h
    exact normal_bytes (by rw [hwide]; decide)
  · cases h

theorem Script.plain_of_map {α : Type} {h : Hasher} {f : α → Script} {x : Except Error α}
    {s : Script} (hs : f <$> x = .ok s) (hf : ∀ a, (f a).Plain h) : s.Plain h := by
  cases x with
  | error e => cases hs
  | ok a =>
    cases hs
    exact hf a

theorem Gadget.script_plain {h : Hasher} {g : Gadget} {s : Script} (hs : g.script h = .ok s) :
    s.Plain h := by
  cases g with
  | commit k => exact Commitment.scriptFor_plain hs
  | absorbElements n => exact Channel.absorbElementsScriptFor_plain hs
  | start digest => exact (Channel.startScript_normal hs).plain
  | word => cases hs; exact Word.script_normal.plain
  | canonical => cases hs; exact Word.canonicalScript_normal.plain
  | absorb => cases hs; exact Channel.absorbScript_plain
  | absorbElement => cases hs; exact Channel.absorbElementScript_plain
  | draw => cases hs; exact Channel.drawScript_plain
  | squeezeElement => cases hs; exact Channel.squeezeElementScript_plain
  | queryPhase c => cases hs; exact QueryPhase.script_plain c
  | trim logn order => exact plain_of_map hs fun w => (order.script_normal w).plain
  | unpack n => exact plain_of_map hs fun n => (Extraction.script_normal n).plain
  | queries logn order =>
    exact plain_of_map hs fun w => (Extraction.queriesScript_normal w order).plain
  | squeezeQueries logn order =>
    exact plain_of_map hs (Channel.squeezeQueriesScript_plain · order)
  | work n => exact plain_of_map hs Work.script_plain
  | bits depth => exact plain_of_map hs fun w => (Merkle.bitsScript_normal w).plain
  | path depth => exact plain_of_map hs Merkle.pathScript_plain
  | opening depth => exact plain_of_map hs Merkle.openingScript_plain

def Script.OnlyPushes (s : Script) : Prop := ∀ i ∈ s, ∃ data, i = .push data

namespace Script.OnlyPushes

theorem pushes (xs : List Bytes) : OnlyPushes (pushes xs) :=
  List.forall_mem_map.mpr fun x _ => ⟨x, rfl⟩

theorem nums (vs : List Int) : OnlyPushes (nums vs) :=
  List.forall_mem_map.mpr fun v _ => ⟨Number.encode v, rfl⟩

theorem append {s t : Script} (hs : s.OnlyPushes) (ht : t.OnlyPushes) : (s ++ t).OnlyPushes :=
  List.forall_mem_append.mpr ⟨hs, ht⟩

theorem flatMap {α : Type} {f : α → Script} (hf : ∀ a, (f a).OnlyPushes) (xs : List α) :
    OnlyPushes (xs.flatMap f) := by
  intro i hi
  obtain ⟨a, -, hia⟩ := List.mem_flatMap.mp hi
  exact hf a i hia

theorem witness (w : Work.Witness) (nonce : Bytes) : (w.script nonce).OnlyPushes :=
  (pushes _).append (nums _)

theorem opening (o : Merkle.Opening) : o.script.OnlyPushes := (nums _).append (pushes _)

theorem proof (p : QueryPhase.Proof) : p.script.OnlyPushes :=
  ((((((pushes [p.root]).append (pushes _)).append (nums _)).append (witness _ _)).append
    (pushes _)).append (flatMap opening _))

end Script.OnlyPushes

theorem Offer.script_onlyPushes (x : Offer) : x.script.OnlyPushes := by
  cases x with
  | hint x => exact .pushes _
  | work w nonce => exact .witness w nonce
  | siblings o => exact .pushes _
  | opening o => exact .opening o
  | proof p => exact .proof p

theorem Offer.script_normal {x : Offer}
    (h : ∀ data, .push data ∈ x.script → data.length < 2 ^ 32) : x.script.Normal := by
  intro i hi
  obtain ⟨data, rfl⟩ := x.script_onlyPushes i hi
  exact h data hi

/-- Normal scripts are read back from their bytes, and what is read is normal and no shorter than
it could be written. Builders, the scripts that check and those that a prover offers stay within
the normal ones. -/
theorem Script.wire_roundTrip :
    (∀ s : Script, s.Normal → ofWire s.wire = .ok s ∧ s.size = s.wire.length) ∧
    (∀ (raw : Bytes) (s : Script), ofWire raw = .ok s →
      s.Normal ∧ s.wire.length ≤ raw.length) ∧
    (∀ parts : List Part, (∀ p ∈ parts, p.Sound) →
      ∃ s, build parts = .ok s ∧ s.Normal ∧ ofWire s.wire = .ok s) ∧
    (∀ h : Hasher, h.opcode.isPushData = false → ∀ (g : Gadget) (s : Script),
      g.script h = .ok s → s.Normal ∧ ofWire s.wire = .ok s) ∧
    ∀ x : Offer, (∀ data, .push data ∈ x.script → data.length < 2 ^ 32) →
      x.script.Normal ∧ ofWire x.script.wire = .ok x.script := by
  refine ⟨?_, ?_, ?_, ?_, ?_⟩
  · intro s hs
    exact ⟨ofWire_wire hs, size_eq_length_wire s⟩
  · intro raw s hs
    exact normal_of_ofWire hs
  · intro parts hparts
    obtain ⟨s, hs, hn⟩ := build_of_forall fun p hp => (hparts p hp).build
    exact ⟨s, hs, hn, ofWire_wire hn⟩
  · intro h hh g s hs
    have hn := (Gadget.script_plain hs).normal hh
    exact ⟨hn, ofWire_wire hn⟩
  · intro x hx
    have hn := Offer.script_normal hx
    exact ⟨hn, ofWire_wire hn⟩

/-- The lengths at which pushes change their form, a push with a longer form than it needs, and a
script that checks a path. -/
theorem Script.wire_roundTrip_boundaries :
    let s := pushes [[], [16], [17], [0x81], .replicate 75 0, .replicate 76 0, .replicate 255 0,
      .replicate 256 0] ++ ops [.cat]
    let path := Merkle.pathScript .sha256 ⟨2, by decide, by decide⟩
    (s.Normal ∧ ofWire s.wire = .ok s) ∧
    (ofWire [0x4d, 0x01, 0x00, 0x05] = .ok (bytes [5]) ∧ (bytes [5]).wire.length ≤ 4) ∧
    (Gadget.path 2).script Hasher.sha256 = .ok path ∧ ofWire path.wire = .ok path := by
  have hs : (pushes [[], [16], [17], [0x81], .replicate 75 0, .replicate 76 0, .replicate 255 0,
      .replicate 256 0] ++ ops [.cat]).Normal := by
    refine .append (normal_pushes.mpr ?_) (normal_ops rfl)
    simp only [List.forall_mem_cons, List.length_replicate]
    decide
  have hfive : ofWire [0x4d, 0x01, 0x00, 0x05] = .ok (bytes [5]) := by
    have hitem : readItem 4 0x4d [0x01, 0x00, 0x05] = .ok (.push [5], []) := rfl
    have hfrom := readFrom_wire normal_nil 4 [.push [5]]
    exact (readFrom_cons hitem).trans hfrom
  obtain ⟨hnormal, hread, -, hgadget, -⟩ := wire_roundTrip
  exact ⟨⟨hs, (hnormal _ hs).1⟩, ⟨hfive, (hread _ _ hfive).2⟩, rfl,
    (hgadget _ rfl (.path 2) _ rfl).2⟩

end HintScript
