import HintScript.Merkle
import HintScript.Proofs.Channel
import HintScript.Proofs.IndexBits

set_option autoImplicit false

namespace HintScript.Merkle

open Number Script Commitment

section

variable {H : Bytes → Bytes} {m l : List Bytes}

def levelScript : Script :=
  fetch ++ ops [.fromAlt] ++ (.op .ifTrue :: (ops [.swap] ++ [.op .endIf])) ++
    ops [.cat, .sha256]

theorem levelScript_shifts : Shifts levelScript (-1) (-1) 1 :=
  (((fetch_shifts.append (.line (s := ops [.fromAlt]) rfl)).append
    (.only (.inl rfl) (.line (s := ops [.swap]) rfl))).append
    (.line (s := ops [.cat, .sha256]) rfl)).of_eq rfl rfl (by decide)

theorem pathScript_eq (w : Width) : pathScript ⟨.sha256, H⟩ w =
    bitsScript w ++ times w.bits levelScript ++ ops [.equalVerify] := rfl

theorem exec_levelScript {current sibling : Bytes} {bit : Bool} (hc : current.length = digestSize)
    (hm : m.length < 2 ^ 30) :
    exec (shaEnv H) levelScript ⟨⟨current :: (m ++ [sibling]), ofBool bit :: l⟩, []⟩ =
      if sibling.length ≤ 488
      then some ⟨⟨(if bit then node ⟨.sha256, H⟩ sibling current
        else node ⟨.sha256, H⟩ current sibling) :: m, l⟩, []⟩
      else none := by
  unfold digestSize at hc
  unfold levelScript
  rw [exec_append, exec_append, exec_append, ← List.cons_append,
    exec_fetch (by rw [List.length_cons]; omega), Option.bind_some, exec_fromAlt, exec_ops_nil,
    Option.bind_some, Shifts.exec_only (.line (s := ops [.swap]) rfl), exec_swap, exec_ops_nil]
  by_cases hs : sibling.length ≤ 488
  · cases bit <;>
      simp [exec_cat, node, hc, hs, show 32 + sibling.length ≤ 520 by omega]
  · cases bit <;>
      simp [exec_cat, hc, hs, show ¬ 32 + sibling.length ≤ 520 by omega]

theorem exec_climb (hH : ∀ data, (H data).length = digestSize) (siblings : List Bytes)
    {current : Bytes} (hc : current.length = digestSize) {n : Nat}
    (hm : m.length + siblings.length < 2 ^ 30) :
    exec (shaEnv H) (times siblings.length levelScript)
        ⟨⟨current :: (m ++ siblings.reverse), bitItems siblings.length n ++ l⟩, []⟩ =
      if Short siblings
      then some ⟨⟨climb ⟨.sha256, H⟩ current n siblings :: m, l⟩, []⟩ else none := by
  induction siblings generalizing current n with
  | nil => simp [Short, bitItems, climb]
  | cons s rest ih =>
    rw [List.length_cons] at hm
    rw [List.length_cons, times_succ, exec_append, List.reverse_cons, ← List.append_assoc,
      bitItems_succ, List.cons_append, exec_levelScript hc (by simp; omega)]
    have hiff := Short.cons_iff (x := s) (l := rest)
    by_cases hs : s.length ≤ 488
    · rw [if_pos hs, Option.bind_some, ih (by split <;> exact hH _) (by omega)]
      by_cases hrest : Short rest
      · rw [if_pos hrest, if_pos (hiff.mpr ⟨hs, hrest⟩), climb]
        simp
      · rw [if_neg hrest, if_neg fun h => hrest (hiff.mp h).2]
    · rw [if_neg hs, if_neg fun h => hs (hiff.mp h).1]
      rfl

theorem length_climb {h : Hasher} (hw : h.Wide) {current : Bytes} {n : Nat}
    {siblings : List Bytes} (hne : siblings ≠ []) :
    (climb h current n siblings).length = digestSize := by
  induction siblings generalizing current n with
  | nil => exact absurd rfl hne
  | cons s rest ih =>
    cases rest with
    | nil =>
      rw [climb, climb]
      split <;> exact hw _
    | cons t rest => exact ih (by simp)

theorem exec_pathScript (hH : ∀ data, (H data).length = digestSize) {w : Width}
    {item current root : Bytes} (hc : current.length = digestSize)
    {siblings : List Bytes} (hs : siblings.length = w.bits) (hm : m.length < 2 ^ 29) :
    exec (shaEnv H) (pathScript ⟨.sha256, H⟩ w)
        ⟨⟨item :: current :: root :: (m ++ siblings.reverse), l⟩, []⟩ =
      (readIndex w item).bind fun n =>
        if Short siblings ∧ climb ⟨.sha256, H⟩ current n siblings = root
        then some ⟨⟨m, l⟩, []⟩ else none := by
  have hle := w.le
  rw [pathScript_eq, exec_append, exec_append, exec_bitsScript]
  cases readIndex w item with
  | none => rfl
  | some n =>
    rw [Option.map_some, Option.bind_some, Option.bind_some, ← hs, ← List.cons_append,
      exec_climb hH siblings hc (by rw [List.length_cons]; omega)]
    by_cases hshort : Short siblings
    · rw [if_pos hshort, Option.bind_some, exec_equalVerify, exec_ops_nil]
      simp [hshort]
    · simp [hshort]

/-- Keeps copies of the four items on top on the alt stack, the deepest on its top. -/
def keepScript : Script :=
  ops [.dup, .toAlt, .over1, .toAlt] ++ num 2 ++ ops [.pick, .toAlt] ++ num 3 ++
    ops [.pick, .toAlt]

theorem exec_keepScript {leaf : List Bytes} (hl : leaf.length = 4) :
    exec (shaEnv H) keepScript ⟨⟨leaf.reverse ++ m, l⟩, []⟩ =
      some ⟨⟨leaf.reverse ++ m, leaf ++ l⟩, []⟩ := by
  match leaf, hl with
  | [a, b, c, d], _ =>
    have htwo : (2 : Int) = (2 : Nat) := rfl
    have hthree : (3 : Int) = (3 : Nat) := rfl
    change exec (shaEnv H) keepScript ⟨⟨d :: c :: b :: a :: m, l⟩, []⟩ = _
    unfold keepScript
    simp only [exec_append, exec_dup, exec_toAlt, exec_over1, exec_ops_nil, Option.bind_some]
    rw [exec_num (by decide), Option.bind_some, htwo, exec_pick (x := b) (by decide) rfl,
      exec_toAlt, exec_ops_nil, Option.bind_some, exec_num (by decide), Option.bind_some, hthree,
      exec_pick (x := a) (by decide) rfl, exec_toAlt, exec_ops_nil]
    rfl

theorem openingScript_eq (h : Hasher) (w : Width) : openingScript h w =
    times 4 fetch ++ keepScript ++ Commitment.script h 4 ++ ops [.swap] ++ pathScript h w ++
      times 4 (ops [.fromAlt]) := by
  simp only [openingScript, keepScript, List.append_assoc]

theorem exec_openingScript (hH : ∀ data, (H data).length = digestSize) {w : Width}
    {item root : Bytes} {leaf siblings : List Bytes} (hl : leaf.length = 4)
    (hs : siblings.length = w.bits) (hm : m.length < 2 ^ 29) :
    exec (shaEnv H) (openingScript ⟨.sha256, H⟩ w)
        ⟨⟨item :: root :: (m ++ (leaf ++ siblings).reverse), l⟩, []⟩ =
      (readIndex w item).bind fun n =>
        if Short leaf.dropLast ∧ Short siblings ∧
          climb ⟨.sha256, H⟩ (nest H leaf) n siblings = root
        then some ⟨⟨leaf.reverse ++ m, l⟩, []⟩ else none := by
  have hle := w.le
  have hne : leaf ≠ [] := fun h0 => by simp [h0] at hl
  have hfetch := exec_times_fetch (H := H) (l := l)
    (m := item :: root :: (m ++ siblings.reverse)) leaf (by simp; omega)
  have hcommit := Commitment.exec_script (m := item :: root :: (m ++ siblings.reverse))
    (l := leaf ++ l) hH hne
  have hback := exec_times_fromAlt (H := H) (m := m) (l := l) (s := []) (f := id) (g := id) leaf
    fun x hx m l => rfl
  rw [hl] at hfetch hcommit hback
  rw [List.map_id, List.append_nil] at hback
  rw [openingScript_eq]
  simp only [exec_append]
  rw [List.reverse_append, ← List.append_assoc, ← List.cons_append, ← List.cons_append, hfetch,
    Option.bind_some, exec_keepScript hl, Option.bind_some, hcommit]
  by_cases hleaf : Short leaf.dropLast
  · rw [if_pos hleaf, Option.bind_some, exec_swap, exec_ops_nil, Option.bind_some,
      exec_pathScript hH (length_nest hH hne) hs hm, Option.bind_assoc]
    congr 1
    funext n
    by_cases hpath : Short siblings ∧ climb ⟨.sha256, H⟩ (nest H leaf) n siblings = root
    · rw [if_pos hpath, Option.bind_some, hback, if_pos ⟨hleaf, hpath⟩]
    · rw [if_neg hpath, if_neg fun h => hpath h.2]
      rfl
  · simp [hleaf]

theorem pathScript_shifts (H : Bytes → Bytes) (w : Width) :
    Shifts (pathScript ⟨.sha256, H⟩ w) (-3 - w.bits) 0 (w.bits + 2) := by
  have hroom := bitsRoom_le w
  have hlevels := levelScript_shifts.times w.bits (k := 0) (by decide) (by decide)
  exact (((bitsScript_shifts w).append hlevels).append
    (.line (s := ops [.equalVerify]) rfl)).of_eq (by omega) (by omega) (by omega)

theorem openingScript_shifts (H : Bytes → Bytes) (w : Width) :
    Shifts (openingScript ⟨.sha256, H⟩ w) (-2 - w.bits) 0 (w.bits + 8) := by
  have hback := (Shifts.line (s := ops [.fromAlt]) rfl).times 4 (k := 0) (by decide) (by decide)
  rw [openingScript_eq]
  exact ((((((times_fetch_shifts 4).append (.line (s := keepScript) rfl)).append
    (Commitment.script_shifts H 3)).append (.line (s := ops [.swap]) rfl)).append
    (pathScript_shifts H w)).append hback).of_eq (by omega) (by omega) (by omega)

end

theorem leaves_eq (w : Width) : w.leaves = 2 ^ w.bits := Nat.one_shiftLeft w.bits

theorem ofDepth_bits (w : Width) : Width.ofDepth w.bits = .ok w := by
  have hpos := w.pos
  have hle := w.le
  unfold Width.ofDepth Width.of?
  rw [dif_pos (by omega)]
  simp

theorem bits_of_ofDepth {depth : Int} {w : Width} (hd : Width.ofDepth depth = .ok w) :
    depth = w.bits := by
  unfold Width.ofDepth Width.of? at hd
  by_cases hrange : 1 ≤ depth ∧ depth ≤ 31
  · simp only [dif_pos hrange, Except.ok.injEq] at hd
    rw [← hd]
    exact (Int.toNat_of_nonneg (by omega)).symm
  · simp [hrange] at hd

theorem exists_index {k : Nat} {q : Int} (h0 : 0 ≤ q) (hq : q < 2 ^ k) :
    ∃ n : Nat, q = n ∧ n < 2 ^ k := by
  obtain ⟨n, rfl⟩ := Int.eq_ofNat_of_zero_le h0
  exact ⟨n, rfl, by exact_mod_cast hq⟩

/-! ### Checked paths -/

section

variable {h : Hasher} {w : Width} {root leaf : Bytes} {n : Nat} {siblings : List Bytes}

/-- With an index of the width, only the root can be wrong. -/
theorem checkPath_eq (hn : n < 2 ^ w.bits) (hs : siblings.length = w.bits) :
    checkPath h root leaf n siblings =
      if climb h leaf n siblings = root then .ok ()
      else .error (.rejected (.path (.otherRoot n))) := by
  have hrange : (0 : Int) ≤ n ∧ (n : Int) < w.leaves := by
    rw [leaves_eq]
    omega
  have hshort : n < 2 ^ 31 := hn.trans_le (Nat.pow_le_pow_right (by decide) w.le)
  have hworded : (Rejection.path (.otherRoot n)).raised = .rejected (.path (.otherRoot n)) := by
    refine Rejection.raised_of_writable fun i hi => ?_
    cases hi
    exact writable_of_lt (by simpa using hshort)
  unfold checkPath
  rw [hs, ofDepth_bits]
  simp only [bind, Except.bind, hrange, and_self, not_true_eq_false, if_false,
    Int.toNat_natCast, hworded]
  by_cases he : climb h leaf n siblings = root
  · simp [he, pure, Except.pure]
  · simp [he, throw, throwThe, MonadExceptOf.throw]

theorem checkPath_eq_ok_iff (hn : n < 2 ^ w.bits) (hs : siblings.length = w.bits) :
    checkPath h root leaf n siblings = .ok () ↔ climb h leaf n siblings = root := by
  rw [checkPath_eq hn hs]
  split <;> simp_all

theorem checkPath_eq_ok_iff_exists (hs : siblings.length = w.bits) {index : Int} :
    checkPath h root leaf index siblings = .ok () ↔
      ∃ n : Nat, index = n ∧ n < 2 ^ w.bits ∧ climb h leaf n siblings = root := by
  constructor
  · intro hc
    by_cases hrange : 0 ≤ index ∧ index < w.leaves
    · obtain ⟨n, rfl⟩ := Int.eq_ofNat_of_zero_le hrange.1
      have hn : n < 2 ^ w.bits := by
        rw [← leaves_eq]
        omega
      exact ⟨n, rfl, hn, (checkPath_eq_ok_iff hn hs).mp hc⟩
    · simp only [checkPath, hs, ofDepth_bits, bind, Except.bind, hrange, not_false_eq_true,
        if_true] at hc
      cases hc
  · intro hex
    obtain ⟨n, rfl, hn, hclimb⟩ := hex
    exact (checkPath_eq_ok_iff hn hs).mpr hclimb

theorem verifyPath_eq (hn : n < 2 ^ w.bits) (hs : siblings.length = w.bits)
    {log : List Warning} :
    verifyPath h root leaf n siblings log =
      if climb h leaf n siblings = root then .ok true log
      else .ok false (log ++ [.pathRejected (.otherRoot n)]) := by
  unfold verifyPath
  rw [checkPath_eq hn hs]
  by_cases he : climb h leaf n siblings = root
  · rw [if_pos he, if_pos he]
    rfl
  · rw [if_neg he, if_neg he]
    rfl

theorem verifyPath_eq_ok_true_iff {index : Int} {log log' : List Warning} :
    verifyPath h root leaf index siblings log = .ok true log' ↔
      checkPath h root leaf index siblings = .ok () ∧ log' = log := by
  unfold verifyPath
  cases checkPath h root leaf index siblings with
  | ok u => simp [pure, EStateM.pure, eq_comm]
  | error e =>
    have hwarned (cause : PathError) :
        (do warn (.pathRejected cause); return false : Logged Bool) log =
          .ok false (log ++ [.pathRejected cause]) := rfl
    rcases e with ⟨_ | _ | _ | cause⟩ | _ <;>
      simp [hwarned, throw, throwThe, MonadExceptOf.throw, EStateM.throw]

theorem verify_eq_verifyPath (hw : h.Wide) {o : Opening} (hs : o.siblings.length = w.bits)
    {index : Int} :
    verify h root w.bits o index =
      verifyPath h root (nest h.digest o.leaf.items) index o.siblings := by
  obtain ⟨c, hc, hdigest⟩ := Commitment.ofQM31_digest hw o.leaf
  unfold verify
  simp only [ofDepth_bits, hc, hs, hdigest, ofExcept_ok_bind, ne_eq, not_true_eq_false, if_false]

theorem verify_eq (hw : h.Wide) {o : Opening} (hn : n < 2 ^ w.bits)
    (hs : o.siblings.length = w.bits) {log : List Warning} :
    verify h root w.bits o n log =
      if climb h (nest h.digest o.leaf.items) n o.siblings = root then .ok true log
      else .ok false (log ++ [.pathRejected (.otherRoot n)]) := by
  rw [verify_eq_verifyPath hw hs, verifyPath_eq hn hs]

/-- The item encodes an index at which the path of a leaf's node is accepted. -/
def Indexed (h : Hasher) (root leaf : Bytes) (siblings : List Bytes) (item : Bytes) : Prop :=
  ∃ index : Int, item = encode index ∧ checkPath h root leaf index siblings = .ok ()

theorem indexed_iff (hs : siblings.length = w.bits) {item : Bytes} :
    Indexed h root leaf siblings item ↔
      ∃ n, readIndex w item = some n ∧ climb h leaf n siblings = root := by
  constructor
  · intro hi
    obtain ⟨index, rfl, hc⟩ := hi
    obtain ⟨n, rfl, hn, hclimb⟩ := (checkPath_eq_ok_iff_exists hs).mp hc
    exact ⟨n, readIndex_encode hn, hclimb⟩
  · intro hi
    obtain ⟨n, hread, hclimb⟩ := hi
    obtain ⟨rfl, hn⟩ := readIndex_eq_some_iff.mp hread
    exact ⟨n, rfl, (checkPath_eq_ok_iff hn hs).mpr hclimb⟩

theorem attains_or_aborts_of_indexed {H : Bytes → Bytes} {s : Script} {d a p : Int}
    (hshift : Shifts s d a p) {m : Machine} (ha : m.active = true) {item : Bytes}
    (hs : siblings.length = w.bits) {st : Stacks}
    (hexec : exec (shaEnv H) s ⟨m.stack, []⟩ = (readIndex w item).bind fun n =>
      if climb ⟨.sha256, H⟩ leaf n siblings = root then some ⟨st, []⟩ else none) :
    (Indexed ⟨.sha256, H⟩ root leaf siblings item → m.Attains (shaEnv H) s p st) ∧
    (¬ Indexed ⟨.sha256, H⟩ root leaf siblings item → m.Aborts (shaEnv H) s) := by
  have hrun := hshift.attains_or_aborts (H := H) ha
  rw [hexec] at hrun
  rw [indexed_iff hs]
  cases hread : readIndex w item with
  | none => simpa [hread] using hrun
  | some n =>
    simp only [hread, Option.bind_some] at hrun
    by_cases hclimb : climb ⟨.sha256, H⟩ leaf n siblings = root
    · simpa [hclimb] using hrun
    · simpa [hclimb] using hrun

/-- The path script and the opening script go on exactly where the item is an index at which
`checkPath` accepts, and then leave the rest as it was: the one without root, node and index, the
other with the components of the leaf in their place. -/
theorem scripts_check_path (ho : h.opcode = .sha256) (hw : h.Wide) (w : Width)
    (root : Bytes) {item : Bytes} (hs : siblings.length = w.bits) (hshort : Short siblings)
    (rest alt : List Bytes) {m : Machine} (ha : m.active = true) (hsize : m.stack.size ≤ 1000) :
    (∀ leaf : Bytes, leaf.length = digestSize →
      m.stack = ⟨item :: leaf :: root :: (rest ++ siblings.reverse), alt⟩ →
      (Indexed h root leaf siblings item →
        m.Attains ⟨h, {}⟩ (pathScript h w) (w.bits + 2) ⟨rest, alt⟩) ∧
      (¬ Indexed h root leaf siblings item → m.Aborts ⟨h, {}⟩ (pathScript h w))) ∧
    (∀ x : QM31, ∃ c, Commitment.ofQM31 h x = .ok c ∧
      (m.stack = ⟨item :: root :: (rest ++ (x.items ++ siblings).reverse), alt⟩ →
      (Indexed h root c.digest siblings item →
        m.Attains ⟨h, {}⟩ (openingScript h w) (w.bits + 8) ⟨x.items.reverse ++ rest, alt⟩) ∧
      (¬ Indexed h root c.digest siblings item → m.Aborts ⟨h, {}⟩ (openingScript h w)))) := by
  obtain ⟨o, H⟩ := h
  obtain rfl : o = .sha256 := ho
  constructor
  · intro leaf hleaf hstack
    have hrest : rest.length < 2 ^ 29 := by
      simp only [hstack, Stacks.size, List.length_cons, List.length_append] at hsize
      omega
    apply attains_or_aborts_of_indexed (pathScript_shifts H w) ha hs
    rw [hstack, exec_pathScript hw hleaf hs hrest]
    simp [hshort]
  · intro x
    obtain ⟨c, hc, hdigest⟩ := Commitment.ofQM31_digest hw x
    refine ⟨c, hc, ?_⟩
    intro hstack
    have hrest : rest.length < 2 ^ 29 := by
      simp only [hstack, Stacks.size, List.length_cons, List.length_append] at hsize
      omega
    apply attains_or_aborts_of_indexed (openingScript_shifts H w) ha hs
    rw [hstack, exec_openingScript hw rfl hs hrest, hdigest]
    simp [hshort, x.items_fit]

theorem scripts_check_path_two :
    let h : Hasher := ⟨.sha256, fun x => List.replicate 32 (x.headD 0 + 1 + UInt8.ofNat x.length)⟩
    let w : Width := ⟨2, by decide, by decide⟩
    let x : QM31 := QM31.ofInts 1 2 3 4
    let siblings : List Bytes := [[5], [6, 7]]
    let root : Bytes := List.replicate 32 41
    let m (item : Bytes) : Machine :=
      { stack := ⟨item :: root :: ([[42]] ++ (x.items ++ siblings).reverse), [[9]]⟩ }
    (m [2]).Leaves ⟨h, {}⟩ (openingScript h w) ⟨[[4], [3], [2], [1], [42]], [[9]]⟩ ∧
      (m [2, 0]).Aborts ⟨h, {}⟩ (openingScript h w) := by
  intro h w x siblings root m
  have hw : h.Wide := fun x => List.length_replicate
  have hshort : Short siblings := by decide
  have hitems : x.items = [[1], [2], [3], [4]] := by cbv
  have hc : Commitment.ofQM31 h x = .ok ⟨List.replicate 32 35, rfl⟩ := by cbv
  have hpath : checkPath h root (List.replicate 32 35) 2 siblings = .ok () := by cbv
  have hlong : ¬ Indexed h root (List.replicate 32 35) siblings [2, 0] := by
    intro hi
    obtain ⟨index, he, -⟩ := hi
    have hminimal := isMinimal_encode index
    rw [← he] at hminimal
    cases hminimal
  obtain ⟨c, hc', hrun⟩ := (scripts_check_path (m := m [2]) rfl hw w root rfl hshort [[42]] [[9]]
    rfl (by decide)).2 x
  obtain ⟨c', hc'', hrun'⟩ := (scripts_check_path (m := m [2, 0]) rfl hw w root rfl hshort [[42]]
    [[9]] rfl (by decide)).2 x
  cases hc.symm.trans hc'
  cases hc.symm.trans hc''
  have hleaves := ((hrun rfl).1 ⟨2, rfl, hpath⟩).leaves (by decide)
  rw [hitems] at hleaves
  exact ⟨hleaves, (hrun' rfl).2 hlong⟩

end

/-! ### Openings of a tree -/

section

variable {h : Hasher}

theorem length_above {k : Nat} {layer : List Bytes} (hl : layer.length = 2 * k) :
    (above h layer).length = k := by
  induction k generalizing layer with
  | zero =>
    rw [List.length_eq_zero_iff.mp hl]
    rfl
  | succ k ih =>
    match layer, hl with
    | l :: r :: rest, hl =>
      rw [above, List.length_cons, ih (by simp only [List.length_cons] at hl; omega)]

/-- A node has the two nodes below it as children; a layer of odd length loses its last node. -/
theorem getElem?_above (layer : List Bytes) (j : Nat) :
    (above h layer)[j]? = (layer[2 * j]?).bind fun left =>
      (layer[2 * j + 1]?).map fun right => h.digest (left ++ right) := by
  fun_induction above h layer generalizing j with
  | case1 l r rest ih =>
    cases j with
    | zero => simp [node]
    | succ j => simp [ih, Nat.mul_succ]
  | case2 layer hshort =>
    rcases layer with _ | ⟨x, _ | ⟨y, rest⟩⟩
    · simp
    · simp
    · exact absurd rfl (hshort x y rest)

theorem getD_above {layer : List Bytes} {j : Nat} (hj : 2 * j + 1 < layer.length) :
    (above h layer).getD j [] = node h (layer.getD (2 * j) []) (layer.getD (2 * j + 1) []) := by
  have hj' : 2 * j < layer.length := by omega
  simp [getElem?_above, hj, hj', node]

theorem wide_above (hw : h.Wide) (layer : List Bytes) : ∀ x ∈ above h layer, x.length = digestSize := by
  fun_induction above h layer with
  | case1 l r rest ih => exact List.forall_mem_cons.mpr ⟨hw _, ih⟩
  | case2 => simp

def top (layers : List (List Bytes)) : Bytes := ((layers.getLast?.getD []).head?).getD []

theorem layersFrom_eq_cons (h : Hasher) (depth : Nat) (layer : List Bytes) :
    ∃ rest, layersFrom h depth layer = layer :: rest := by
  cases depth <;> exact ⟨_, rfl⟩

theorem top_layersFrom_succ (depth : Nat) (layer : List Bytes) :
    top (layersFrom h (depth + 1) layer) = top (layersFrom h depth (above h layer)) := by
  obtain ⟨rest, hrest⟩ := layersFrom_eq_cons h depth (above h layer)
  rw [layersFrom, hrest]
  rfl

theorem siblings_layersFrom_succ (depth : Nat) (layer : List Bytes) (i : Nat) :
    Tree.siblings (layersFrom h (depth + 1) layer) i =
      layer.getD (Tree.beside i) [] :: Tree.siblings (layersFrom h depth (above h layer)) (i / 2) := by
  obtain ⟨rest, hrest⟩ := layersFrom_eq_cons h depth (above h layer)
  rw [layersFrom, hrest]
  rfl

theorem length_siblings (depth : Nat) (layer : List Bytes) (i : Nat) :
    (Tree.siblings (layersFrom h depth layer) i).length = depth := by
  induction depth generalizing layer i with
  | zero => rfl
  | succ depth ih => rw [siblings_layersFrom_succ, List.length_cons, ih]

theorem node_beside {layer : List Bytes} {i k : Nat} (hl : layer.length = 2 * k)
    (hi : i < layer.length) :
    (if i % 2 = 1 then node h (layer.getD (Tree.beside i) []) (layer.getD i [])
      else node h (layer.getD i []) (layer.getD (Tree.beside i) [])) =
      (above h layer).getD (i / 2) [] := by
  rw [getD_above (by omega)]
  unfold Tree.beside
  by_cases hodd : i % 2 = 1
  · rw [if_pos hodd, if_neg (by omega), show 2 * (i / 2) = i - 1 by omega,
      show i - 1 + 1 = i by omega]
  · rw [if_neg hodd, if_pos (by omega), show 2 * (i / 2) = i by omega]

/-- The siblings of a node lead from it to the top. -/
theorem climb_siblings {depth : Nat} {layer : List Bytes} {i : Nat}
    (hl : layer.length = 2 ^ depth) (hi : i < 2 ^ depth) :
    climb h (layer.getD i []) i (Tree.siblings (layersFrom h depth layer) i) =
      top (layersFrom h depth layer) := by
  induction depth generalizing layer i with
  | zero =>
    obtain rfl : i = 0 := by omega
    match layer, hl with
    | [x], _ => rfl
  | succ depth ih =>
    rw [Nat.pow_succ'] at hl hi
    rw [siblings_layersFrom_succ, climb, node_beside hl (by omega), top_layersFrom_succ]
    exact ih (length_above hl) (by omega)

theorem wide_siblings (hw : h.Wide) {depth : Nat} {layer : List Bytes} {i : Nat}
    (hl : layer.length = 2 ^ depth) (hi : i < 2 ^ depth)
    (hwide : ∀ x ∈ layer, x.length = digestSize) :
    ∀ s ∈ Tree.siblings (layersFrom h depth layer) i, s.length = digestSize := by
  induction depth generalizing layer i with
  | zero => exact List.forall_mem_nil _
  | succ depth ih =>
    rw [Nat.pow_succ'] at hl hi
    rw [siblings_layersFrom_succ]
    have hbeside : Tree.beside i < layer.length := by
      unfold Tree.beside
      split <;> omega
    refine List.forall_mem_cons.mpr ⟨?_, ih (length_above hl) (by omega) (wide_above hw layer)⟩
    rw [List.getD_eq_getElem?_getD, List.getElem?_eq_getElem hbeside, Option.getD_some]
    exact hwide _ (List.getElem_mem hbeside)

def leafLayer (h : Hasher) (leaves : List QM31) : List Bytes :=
  leaves.map fun x => nest h.digest x.items

theorem exists_commitments (hw : h.Wide) (leaves : List QM31) :
    ∃ cs, leaves.mapM (Commitment.ofQM31 h) = .ok cs ∧
      cs.map Commitment.digest = leafLayer h leaves := by
  induction leaves with
  | nil => exact ⟨[], rfl, rfl⟩
  | cons x leaves ih =>
    obtain ⟨c, hc, hdigest⟩ := Commitment.ofQM31_digest hw x
    obtain ⟨cs, hcs, hlayer⟩ := ih
    refine ⟨c :: cs, ?_, ?_⟩
    · rw [List.mapM_cons, hc, hcs]
      rfl
    · rw [List.map_cons, hdigest, hlayer]
      rfl

theorem build_eq (hw : h.Wide) {w : Width} {leaves : List QM31} (hl : leaves.length = w.leaves) :
    Tree.build h leaves = .ok ⟨w, leaves, layersFrom h w.bits (leafLayer h leaves)⟩ := by
  have hpow : 2 ^ 1 ≤ 2 ^ w.bits := Nat.pow_le_pow_right (by decide) w.pos
  obtain ⟨cs, hcs, hlayer⟩ := exists_commitments hw leaves
  have hlog : leaves.length.log2 = w.bits := by rw [hl, leaves_eq, Nat.log2_two_pow]
  have hcount : ¬ (leaves.length < 2 ∨ leaves.length ≠ 1 <<< w.bits) := by
    rw [hl, leaves_eq, Nat.one_shiftLeft]
    omega
  unfold Tree.build
  simp only [hlog, if_neg hcount, ofDepth_bits, hcs, bind, Except.bind, hlayer]
  rfl

/-- A tree over as many leaves as its width has opens at every index, and what it opens leads to
its root. -/
theorem exists_openAt (hw : h.Wide) {w : Width} {leaves : List QM31}
    (hl : leaves.length = w.leaves) {t : Tree} (ht : Tree.build h leaves = .ok t) {q : Int}
    (h0 : 0 ≤ q) (hq : q < 2 ^ w.bits) :
    ∃ o, t.openAt q = .ok o ∧ o.siblings.length = w.bits ∧
      (∀ s ∈ o.siblings, s.length = digestSize) ∧
      climb h (nest h.digest o.leaf.items) q.toNat o.siblings = t.root := by
  obtain ⟨n, rfl, hn⟩ := exists_index h0 hq
  cases (build_eq hw hl).symm.trans ht
  have hlt : n < leaves.length := by
    rw [hl, leaves_eq]
    exact hn
  have hlayer : (leafLayer h leaves).length = 2 ^ w.bits := by
    rw [leafLayer, List.length_map, hl, leaves_eq]
  have hleaf : (leafLayer h leaves).getD n [] = nest h.digest (leaves.get ⟨n, hlt⟩).items := by
    rw [leafLayer, List.getD_eq_getElem?_getD, List.getElem?_map, List.getElem?_eq_getElem hlt]
    rfl
  refine ⟨⟨leaves.get ⟨n, hlt⟩, Tree.siblings (layersFrom h w.bits (leafLayer h leaves)) n⟩, ?_,
    length_siblings _ _ _, wide_siblings hw hlayer hn ?_, ?_⟩
  · unfold Tree.openAt
    rw [if_pos h0, Int.toNat_natCast, List.getElem?_eq_getElem hlt]
    rfl
  · intro x hx
    obtain ⟨y, -, rfl⟩ := List.mem_map.mp hx
    exact length_nest hw y.items_ne_nil
  · rw [← hleaf]
    exact climb_siblings hlayer hn

end

end HintScript.Merkle
