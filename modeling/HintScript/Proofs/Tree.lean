import HintScript.Proofs.Malleability

set_option autoImplicit false

namespace HintScript.Merkle

open Commitment

/-- Hash of a full tree of height `k`: the commitment of its only leaf, or the hash of its two
halves. Other numbers of leaves have none. -/
def treeHash (h : Hasher) : Nat → List QM31 → Option Bytes
  | 0, [x] => (Commitment.ofQM31 h x).toOption.map Commitment.digest
  | 0, _ => none
  | k + 1, leaves =>
    (treeHash h k (leaves.take (2 ^ k))).bind fun left =>
      (treeHash h k (leaves.drop (2 ^ k))).map fun right => h.digest (left ++ right)

/-- The leaves from `j * 2 ^ k` up to the next multiple of `2 ^ k`. -/
def block (leaves : List QM31) (k j : Nat) : List QM31 := (leaves.drop (j * 2 ^ k)).take (2 ^ k)

section

variable {h : Hasher} {leaves : List QM31}

theorem take_block (k j : Nat) :
    (block leaves (k + 1) j).take (2 ^ k) = block leaves k (2 * j) := by
  have hstart : j * 2 ^ (k + 1) = 2 * j * 2 ^ k := by ring
  have hle : 2 ^ k ≤ 2 ^ (k + 1) := Nat.pow_le_pow_right (by decide) (by omega)
  simp [block, List.take_take, hstart, Nat.min_eq_left hle]

theorem drop_block (k j : Nat) :
    (block leaves (k + 1) j).drop (2 ^ k) = block leaves k (2 * j + 1) := by
  have hstart : j * 2 ^ (k + 1) + 2 ^ k = (2 * j + 1) * 2 ^ k := by ring
  have hsize : 2 ^ (k + 1) - 2 ^ k = 2 ^ k := by
    rw [Nat.pow_succ]
    omega
  simp [block, List.drop_take, List.drop_drop, hstart, hsize]

theorem getElem?_layersFrom (depth : Nat) (layer : List Bytes) {k : Nat} (hk : k ≤ depth) :
    (layersFrom h depth layer)[k]? = some ((above h)^[k] layer) := by
  induction depth generalizing layer k with
  | zero => simp [Nat.le_zero.mp hk, layersFrom]
  | succ depth ih =>
    cases k with
    | zero => simp [layersFrom]
    | succ k => simp [layersFrom, ih (above h layer) (Nat.le_of_succ_le_succ hk)]

theorem length_layersFrom (depth : Nat) (layer : List Bytes) :
    (layersFrom h depth layer).length = depth + 1 := by
  induction depth generalizing layer with
  | zero => simp [layersFrom]
  | succ depth ih => simp [layersFrom, ih]

theorem length_iterate_above {d k : Nat} {layer : List Bytes} (hl : layer.length = 2 ^ d)
    (hk : k ≤ d) :
    ((above h)^[k] layer).length = 2 ^ (d - k) := by
  induction k with
  | zero => simpa using hl
  | succ k ih =>
    have hhalf : 2 ^ (d - k) = 2 * 2 ^ (d - (k + 1)) := by
      rw [← Nat.pow_succ', Nat.succ_eq_add_one]
      congr 1
      omega
    rw [Function.iterate_succ_apply']
    exact length_above ((ih (by omega)).trans hhalf)

/-- Node `j` of layer `k` is the hash of the leaves below it. -/
theorem getElem?_iterate_above (hw : h.Wide) (leaves : List QM31) (k j : Nat) :
    ((above h)^[k] (leafLayer h leaves))[j]? = treeHash h k (block leaves k j) := by
  induction k generalizing j with
  | zero =>
    have hget : leaves[j]? = (leaves.drop j)[0]? := by simp
    simp only [Function.iterate_zero, id_eq, leafLayer, List.getElem?_map, hget, block,
      Nat.pow_zero, Nat.mul_one]
    cases leaves.drop j with
    | nil => simp [treeHash]
    | cons x rest =>
      obtain ⟨c, hc, hdigest⟩ := ofQM31_digest hw x
      simp [treeHash, hc, hdigest, Except.toOption]
  | succ k ih =>
    rw [Function.iterate_succ_apply', getElem?_above, ih, ih, treeHash, take_block, drop_block]

theorem block_all {k : Nat} (hl : leaves.length = 2 ^ k) : block leaves k 0 = leaves := by
  simp [block, ← hl]

theorem treeHash_root (hw : h.Wide) {d : Nat} (hl : leaves.length = 2 ^ d) :
    treeHash h d leaves = some (top (layersFrom h d (leafLayer h leaves))) := by
  have hlayer : (leafLayer h leaves).length = 2 ^ d := by simp [leafLayer, hl]
  have hlength : ((above h)^[d] (leafLayer h leaves)).length = 1 := by
    simpa using length_iterate_above hlayer (Nat.le_refl d)
  have hlast : (layersFrom h d (leafLayer h leaves)).getLast? =
      some ((above h)^[d] (leafLayer h leaves)) := by
    rw [List.getLast?_eq_getElem?, length_layersFrom, Nat.add_sub_cancel,
      getElem?_layersFrom _ _ (Nat.le_refl d)]
  have hnode := getElem?_iterate_above hw leaves d 0
  obtain ⟨x, hx⟩ := List.length_eq_one_iff.mp hlength
  rw [block_all hl, hx] at hnode
  rw [← hnode, top, hlast, hx]
  simp

theorem leaf_of_openAt {t : Tree} {index : Int} {o : Opening} (ho : t.openAt index = .ok o) :
    0 ≤ index ∧ t.leaves[index.toNat]? = some o.leaf := by
  unfold Tree.openAt at ho
  split at ho
  · rename_i h0
    cases hleaf : t.leaves[index.toNat]? with
    | none => simp [hleaf] at ho
    | some x =>
      simp only [hleaf, Except.ok.injEq] at ho
      exact ⟨h0, by rw [← ho]⟩
  · cases ho

theorem length_of_build {t : Tree} (ht : Tree.build h leaves = .ok t) :
    leaves.length = t.width.leaves := by
  by_cases hcount : leaves.length < 2 ∨ leaves.length ≠ 1 <<< leaves.length.log2
  · simp only [Tree.build, if_pos hcount] at ht
    cases ht
  · simp only [Tree.build, if_neg hcount, bind, Except.bind] at ht
    cases hd : Width.ofDepth leaves.length.log2 with
    | error e => simp [hd] at ht
    | ok w =>
      have hbits := bits_of_ofDepth hd
      cases hcs : leaves.mapM (Commitment.ofQM31 h) with
      | error e => simp [hd, hcs] at ht
      | ok cs =>
        simp only [hd, hcs] at ht
        cases ht
        rw [Width.leaves, ← Int.ofNat_inj.mp hbits]
        exact not_not.mp (not_or.mp hcount).2

theorem verify_eq_ok_true_iff (hw : h.Wide) {root : Bytes} {depth index : Int} {o : Opening}
    {log log' : List Warning} :
    verify h root depth o index log = .ok true log' ↔
      ∃ (w : Width) (n : Nat), depth = w.bits ∧ index = n ∧ n < 2 ^ w.bits ∧
        o.LeadsTo h root w.bits n ∧ log' = log := by
  constructor
  · intro hv
    cases hd : Width.ofDepth depth with
    | error e =>
      rw [verify, hd] at hv
      cases hv
    | ok w =>
      obtain rfl := bits_of_ofDepth hd
      by_cases hs : o.siblings.length = w.bits
      · rw [verify_eq_verifyPath hw hs, verifyPath_eq_ok_true_iff,
          checkPath_eq_ok_iff_exists hs] at hv
        obtain ⟨⟨n, rfl, hn, hclimb⟩, rfl⟩ := hv
        exact ⟨w, n, rfl, rfl, hn, ⟨hs, hclimb⟩, rfl⟩
      · simp only [verify, hd, ofExcept_ok_bind, hs, ne_eq, not_false_eq_true, if_true] at hv
        cases hv
  · intro hex
    obtain ⟨w, n, rfl, rfl, hn, ho, rfl⟩ := hex
    rw [verify_eq_verifyPath hw ho.siblings, verifyPath_eq_ok_true_iff,
      checkPath_eq_ok_iff_exists ho.siblings]
    exact ⟨⟨n, rfl, hn, ho.path⟩, rfl⟩

/-- A full number of leaves makes a tree. Its layers halve, node `j` of layer `k` is the hash of the
`2 ^ k` leaves that begin at leaf `j * 2 ^ k`, and its root is the hash of them all. At every index
it opens that leaf, with a sibling a layer, and what it opens is accepted. -/
theorem build_hashes_blocks (hw : h.Wide) {w : Width} (hl : leaves.length = 2 ^ w.bits) :
    ∃ t, Tree.build h leaves = .ok t ∧ t.width = w ∧ t.layers.length = w.bits + 1 ∧
      (∀ k ≤ w.bits, ∃ layer, t.layers[k]? = some layer ∧ layer.length = 2 ^ (w.bits - k) ∧
        ∀ j < 2 ^ (w.bits - k), ∃ x, layer[j]? = some x ∧
          treeHash h k (block leaves k j) = some x) ∧
      treeHash h w.bits leaves = some t.root ∧
      ∀ index : Int, 0 ≤ index → index < 2 ^ w.bits → ∃ o, t.openAt index = .ok o ∧
        leaves[index.toNat]? = some o.leaf ∧ o.siblings.length = w.bits ∧
        ∀ log, verify h t.root w.bits o index log = .ok true log := by
  have hcount : leaves.length = w.leaves := by rw [hl, leaves_eq]
  have hlayer : (leafLayer h leaves).length = 2 ^ w.bits := by simp [leafLayer, hl]
  refine ⟨_, build_eq hw hcount, rfl, length_layersFrom _ _, ?_, treeHash_root hw hl, ?_⟩
  · intro k hk
    have hlength := length_iterate_above (h := h) hlayer hk
    refine ⟨_, getElem?_layersFrom _ _ hk, hlength, ?_⟩
    intro j hj
    have hnode := List.getElem?_eq_getElem (hlength.symm ▸ hj)
    exact ⟨_, hnode, (getElem?_iterate_above hw leaves k j).symm.trans hnode⟩
  · intro index h0 hlt
    obtain ⟨o, ho, hsiblings, -, hpath⟩ := exists_openAt hw hcount (build_eq hw hcount) h0 hlt
    obtain ⟨n, rfl, hn⟩ := exists_index h0 hlt
    refine ⟨o, ho, (leaf_of_openAt ho).2, hsiblings, ?_⟩
    intro log
    exact (verify_eq_ok_true_iff hw).mpr ⟨w, n, rfl, rfl, hn, ⟨hsiblings, hpath⟩, rfl⟩

theorem build_hashes_blocks_four :
    let h : Hasher := ⟨.sha256, fun x => List.replicate 32 (x.headD 0 + 1 + UInt8.ofNat x.length)⟩
    let leaves : List QM31 := [0, 1, QM31.ofInts 1 2 3 4, QM31.ofInts 7 0 0 (-1)]
    ∃ t o, Tree.build h leaves = .ok t ∧ treeHash h 2 leaves = some t.root ∧
      t.openAt 2 = .ok o ∧ o.leaf = QM31.ofInts 1 2 3 4 ∧
      verify h t.root 2 o 2 [] = .ok true [] := by
  intro h leaves
  let w : Width := ⟨2, by decide, by decide⟩
  obtain ⟨t, ht, -, -, -, hroot, hopens⟩ := @build_hashes_blocks h leaves
    (fun x => List.length_replicate) w rfl
  obtain ⟨o, ho, hleaf, -, hv⟩ := hopens 2 (by decide) (by decide)
  exact ⟨t, o, ht, hroot, ho, (Option.some.inj hleaf).symm, hv []⟩

/-- Two openings that are accepted at one index are the same, if the hash tells the strings apart
that are hashed to check them. At the root of a tree nothing but what the tree opens is accepted. -/
theorem verify_binds_opening (hw : h.Wide) (index : Int) :
    (∀ (root : Bytes) (depth : Int) (o o' : Opening) (log log' log₁ log₁' : List Warning),
      verify h root depth o index log = .ok true log₁ →
      verify h root depth o' index log' = .ok true log₁' →
      Set.InjOn h.digest {x | x ∈ o.hashed h index.toNat ++ o'.hashed h index.toNat} →
      o.leaf = o'.leaf ∧ o.siblings = o'.siblings) ∧
    (∀ (leaves : List QM31) (t : Tree) (o : Opening) (log log' : List Warning),
      Tree.build h leaves = .ok t → verify h t.root t.width.bits o index log = .ok true log' →
      ∃ q, t.openAt index = .ok q ∧ verify h t.root t.width.bits q index log = .ok true log ∧
        (Set.InjOn h.digest {x | x ∈ o.hashed h index.toNat ++ q.hashed h index.toNat} →
          o = q)) := by
  constructor
  · intro root depth o o' log log' log₁ log₁' ho ho' hinj
    obtain ⟨w, n, rfl, rfl, -, hleads, -⟩ := (verify_eq_ok_true_iff hw).mp ho
    obtain ⟨w', n', hbits, hn, -, hleads', -⟩ := (verify_eq_ok_true_iff hw).mp ho'
    rw [← Int.ofNat_inj.mp hbits, ← Int.ofNat_inj.mp hn] at hleads'
    obtain rfl := Opening.eq_of_leadsTo hw hleads hleads' hinj
    exact ⟨rfl, rfl⟩
  · intro leaves t o log log' ht ho
    obtain ⟨w, n, hbits, rfl, hn, hleads, -⟩ := (verify_eq_ok_true_iff hw).mp ho
    rw [← Int.ofNat_inj.mp hbits] at hn hleads
    obtain ⟨q, hq, hsiblings, -, hpath⟩ := exists_openAt hw (length_of_build ht) ht
      (Int.natCast_nonneg n) (by exact_mod_cast hn)
    have hleads' : q.LeadsTo h t.root t.width.bits n := ⟨hsiblings, hpath⟩
    refine ⟨q, hq, (verify_eq_ok_true_iff hw).mpr ⟨t.width, n, rfl, rfl, hn, hleads', rfl⟩, ?_⟩
    intro hinj
    exact Opening.eq_of_leadsTo hw hleads hleads' hinj

end

theorem verify_binds_opening_second :
    let h : Hasher := ⟨.sha256, fun x => List.replicate 32 (x.headD 0 + 1 + UInt8.ofNat x.length)⟩
    let leaves : List QM31 := [QM31.ofInts 4 3 2 1, QM31.ofInts 1 2 3 4]
    let o : Opening := ⟨QM31.ofInts 1 2 3 4, [List.replicate 32 38]⟩
    ∃ t q, Tree.build h leaves = .ok t ∧ verify h t.root t.width.bits o 1 [] = .ok true [] ∧
      t.openAt 1 = .ok q ∧ Set.InjOn h.digest {x | x ∈ o.hashed h 1 ++ q.hashed h 1} ∧
      o = q := by
  intro h leaves o
  let t : Tree := ⟨⟨1, by decide, by decide⟩, leaves,
    [[List.replicate 32 38, List.replicate 32 35], [List.replicate 32 103]]⟩
  have ht : Tree.build h leaves = .ok t := by cbv
  have hv : verify h t.root t.width.bits o 1 [] = .ok true [] := by cbv
  have hnodup : ((o.hashed h 1).map h.digest).Nodup := by decide
  obtain ⟨q, hq, -, hbinds⟩ := (verify_binds_opening (h := h) (fun x => List.length_replicate) 1).2
    leaves t o [] [] ht hv
  have hstrings : q.hashed h 1 = o.hashed h 1 := by
    have ho : t.openAt 1 = .ok o := by cbv
    cases hq.symm.trans ho
    rfl
  have hinj : Set.InjOn h.digest {x | x ∈ o.hashed h 1 ++ q.hashed h 1} := by
    rw [hstrings]
    intro x hx y hy
    exact List.inj_on_of_nodup_map hnodup (by simpa using hx) (by simpa using hy)
  exact ⟨t, q, ht, hv, hq, hinj, hbinds hinj⟩

end HintScript.Merkle
