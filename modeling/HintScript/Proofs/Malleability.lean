import HintScript.Proofs.Transcript

set_option autoImplicit false

namespace HintScript

open Commitment

namespace Merkle

def joined (current sibling : Bytes) (n : Nat) : Bytes :=
  if n % 2 = 1 then sibling ++ current else current ++ sibling

def pathHashed (h : Hasher) (current : Bytes) (n : Nat) : List Bytes → List Bytes
  | [] => []
  | s :: rest =>
    joined current s n :: pathHashed h (h.digest (joined current s n)) (n / 2) rest

def Opening.hashed (h : Hasher) (n : Nat) (o : Opening) : List Bytes :=
  Commitment.hashed h.digest o.leaf.items ++
    pathHashed h (nest h.digest o.leaf.items) n o.siblings

/-- The opening has `k` siblings and leads from position `n` to the root. -/
structure Opening.LeadsTo (h : Hasher) (root : Bytes) (k n : Nat) (o : Opening) : Prop where
  siblings : o.siblings.length = k
  path : climb h (nest h.digest o.leaf.items) n o.siblings = root

section

variable {h : Hasher} {current current' : Bytes} {n : Nat}

theorem climb_cons (s : Bytes) (rest : List Bytes) :
    climb h current n (s :: rest) = climb h (h.digest (joined current s n)) (n / 2) rest := by
  rw [climb, joined]
  split <;> rfl

/-- A node has the length of a digest, so its sibling is bound whatever the length of that. -/
theorem joined_inj {s s' : Bytes} (hlen : current.length = current'.length)
    (he : joined current s n = joined current' s' n) : current = current' ∧ s = s' := by
  unfold joined at he
  split at he
  · exact (List.append_inj' he hlen).symm
  · exact List.append_inj he hlen

theorem climb_injOn (hw : h.Wide) {siblings siblings' : List Bytes}
    (hcurrent : current.length = current'.length) (hlen : siblings.length = siblings'.length)
    (hinj : Set.InjOn h.digest
      {x | x ∈ pathHashed h current n siblings ++ pathHashed h current' n siblings'})
    (he : climb h current n siblings = climb h current' n siblings') :
    current = current' ∧ siblings = siblings' := by
  induction siblings generalizing current current' n siblings' with
  | nil =>
    obtain rfl := List.length_eq_zero_iff.mp hlen.symm
    exact ⟨he, rfl⟩
  | cons s rest ih =>
    obtain ⟨s', rest', rfl⟩ := List.exists_cons_of_length_eq_add_one hlen.symm
    rw [List.length_cons, List.length_cons, Nat.add_right_cancel_iff] at hlen
    rw [climb_cons, climb_cons] at he
    have hrest := injOn_of_subset hinj (List.subset_cons_self _ _) (List.subset_cons_self _ _)
    obtain ⟨hnode, rfl⟩ := ih ((hw _).trans (hw _).symm) hlen hrest he
    have hjoined :=
      hinj (List.mem_append_left _ (.head _)) (List.mem_append_right _ (.head _)) hnode
    obtain ⟨rfl, rfl⟩ := joined_inj hcurrent hjoined
    exact ⟨rfl, rfl⟩

theorem Opening.eq_of_leadsTo (hw : h.Wide) {root : Bytes} {k : Nat} {o o' : Opening}
    (ho : o.LeadsTo h root k n) (ho' : o'.LeadsTo h root k n)
    (hinj : Set.InjOn h.digest {x | x ∈ o.hashed h n ++ o'.hashed h n}) : o = o' := by
  have hwide : (nest h.digest o.leaf.items).length = (nest h.digest o'.leaf.items).length := by
    rw [length_nest hw o.leaf.items_ne_nil, length_nest hw o'.leaf.items_ne_nil]
  have hpath := injOn_of_subset hinj (List.subset_append_right _ _) (List.subset_append_right _ _)
  have hleaf := injOn_of_subset hinj (List.subset_append_left _ _) (List.subset_append_left _ _)
  obtain ⟨hnest, hsiblings⟩ := climb_injOn hw hwide (ho.siblings.trans ho'.siblings.symm) hpath
    (ho.path.trans ho'.path.symm)
  have hsame : o.leaf = o'.leaf := QM31.eq_of_nest hw hleaf hnest
  cases o
  cases o'
  exact congrArg₂ Opening.mk hsame hsiblings

end

end Merkle

namespace Extraction

theorem hint_unique {n : WordCount} {hint hint' : Hint} {digest : Bytes} {values values' : List Int}
    (hd : digest.length = digestSize) (h : unpack digest hint n = .ok values)
    (h' : unpack digest hint' n = .ok values') : hint = hint' ∧ values = values' := by
  have he := (extract_of_unpack hd h).symm.trans (extract_of_unpack hd h')
  cases he
  exact ⟨rfl, rfl⟩

theorem exists_unpack_of_unpackElement {hint : Hint} {digest : Bytes} {x : QM31}
    (h : unpackElement digest hint = .ok x) : ∃ values, unpack digest hint .four = .ok values := by
  unfold unpackElement at h
  cases hu : unpack digest hint .four with
  | error e =>
    rw [hu] at h
    cases h
  | ok values => exact ⟨values, rfl⟩

end Extraction

namespace QueryPhase

/-- The strings that the verifier hashes for the openings of a proof at the queries. -/
def Proof.hashed (h : Hasher) (p : Proof) (queries : List Int) : List Bytes :=
  (queries.zip p.openings).flatMap fun q => q.2.hashed h q.1.toNat

section

variable {h : Hasher} {c : Config} {p p' : Proof}

theorem siblings_of_verifyOpenings {root : Bytes} {ps : List (Int × Merkle.Opening)} {i : Nat}
    {log log' : List Warning} (hv : verifyOpenings h c root i ps log = .ok true log') :
    ∀ q ∈ ps, q.2.siblings.length = c.width.bits := by
  induction ps generalizing i log with
  | nil => simp
  | cons q ps ih =>
    obtain ⟨query, o⟩ := q
    rw [verifyOpenings] at hv
    by_cases hs : o.siblings.length = c.width.bits
    · simp only [hs, ne_eq, not_true_eq_false, if_false, bind, EStateM.bind] at hv
      cases hm : Merkle.verify h root c.width.bits o query log with
      | error e log₁ => simp [hm] at hv
      | ok b log₁ =>
        cases b with
        | true =>
          simp only [hm, if_true] at hv
          exact List.forall_mem_cons.mpr ⟨hs, ih hv⟩
        | false =>
          simp only [hm, Bool.false_eq_true, if_false] at hv
          cases hv
    · simp only [hs, ne_eq, not_false_eq_true, if_true] at hv
      cases hv

theorem exists_of_verify (hw : h.Wide) {log log' : List Warning}
    (hv : verify h c p log = .ok true log') :
    p.openings.length = queryCount ∧ ∃ queries t,
      transcript h c p (h.digest (c.seed ++ p.root)) = .ok queries t ∧
      queries.length = queryCount ∧
      ∀ q ∈ queries.zip p.openings, q.2.LeadsTo h p.root c.width.bits q.1.toNat := by
  unfold verify at hv
  by_cases hcount : p.openings.length = queryCount
  · simp only [hcount, ne_eq, not_true_eq_false, if_false] at hv
    by_cases hroot : p.root.length = digestSize
    · simp only [Channel.absorb_eq hroot] at hv
      cases ht : transcript h c p (h.digest (c.seed ++ p.root)) with
      | error e s =>
        rw [ht] at hv
        cases e <;> cases hv
      | ok queries t =>
        simp only [ht] at hv
        obtain ⟨-, next, -, hq, -⟩ := (transcript_eq_ok_iff hw).mp ht
        obtain ⟨values, hvalues, -⟩ := Extraction.unpackQueries_eq_ok_iff.mp hq
        obtain ⟨hlen, hrange⟩ :=
          Extraction.unpackQueries_bounds (Extraction.units_of_unpack hvalues) (hw _) hq
        have hsiblings := siblings_of_verifyOpenings hv
        have hpaths := ((verifyOpenings_eq_ok_true_iff hw fun q hmem =>
          ⟨hrange _ (List.of_mem_zip hmem).1, hsiblings q hmem⟩).mp hv).1
        exact ⟨hcount, queries, t, rfl, hlen, fun q hmem => ⟨hsiblings q hmem, hpaths q hmem⟩⟩
    · simp only [absorb_eq_error hroot] at hv
      cases hv
  · simp only [hcount, ne_eq, not_false_eq_true, if_true] at hv
    cases hv

/-- Openings of the same queries that lead to the same root are the same. -/
theorem openings_unique (hw : h.Wide) {root : Bytes} {k : Nat} {queries : List Int}
    {os os' : List Merkle.Opening} (hlen : os.length = queries.length)
    (hlen' : os'.length = queries.length)
    (hos : ∀ q ∈ queries.zip os, q.2.LeadsTo h root k q.1.toNat)
    (hos' : ∀ q ∈ queries.zip os', q.2.LeadsTo h root k q.1.toNat)
    (hinj : Set.InjOn h.digest
      {x | x ∈ ((queries.zip os).flatMap fun q => q.2.hashed h q.1.toNat) ++
        (queries.zip os').flatMap fun q => q.2.hashed h q.1.toNat}) : os = os' := by
  induction queries generalizing os os' with
  | nil => rw [List.length_eq_zero_iff.mp hlen, List.length_eq_zero_iff.mp hlen']
  | cons query queries ih =>
    obtain ⟨o, os, rfl⟩ := List.exists_cons_of_length_eq_add_one hlen
    obtain ⟨o', os', rfl⟩ := List.exists_cons_of_length_eq_add_one hlen'
    rw [List.length_cons, List.length_cons, Nat.add_right_cancel_iff] at hlen hlen'
    rw [List.zip_cons_cons, List.forall_mem_cons] at hos hos'
    rw [List.zip_cons_cons, List.zip_cons_cons, List.flatMap_cons, List.flatMap_cons] at hinj
    have hrest := injOn_of_subset hinj (List.subset_append_right _ _) (List.subset_append_right _ _)
    have hfirst := injOn_of_subset hinj (List.subset_append_left _ _) (List.subset_append_left _ _)
    have ho : o = o' := Merkle.Opening.eq_of_leadsTo hw hos.1 hos'.1 hfirst
    rw [ho, ih hlen hlen' hos.2 hos'.2 hrest]

/-- Two accepted proofs with the same root and the same claimed value have the same hints and the
same queries, whatever their nonces; with the same nonce they have the same witness; and they open
the same leaves by the same paths if the hash tells the strings apart that are hashed for these. -/
theorem verify_binds (hw : h.Wide) {log log' log₁ log₁' : List Warning}
    (hroot : p.root = p'.root) (hclaimed : p.claimed = p'.claimed)
    (hp : verify h c p log = .ok true log₁) (hp' : verify h c p' log' = .ok true log₁') :
    p.alphaHint = p'.alphaHint ∧ p.queriesHint = p'.queriesHint ∧
    (p.nonce = p'.nonce → p.witness = p'.witness) ∧
    ∃ queries t, queries.length = queryCount ∧
      transcript h c p (h.digest (c.seed ++ p.root)) = .ok queries t ∧
      transcript h c p' (h.digest (c.seed ++ p'.root)) = .ok queries t ∧
      (Set.InjOn h.digest {x | x ∈ p.hashed h queries ++ p'.hashed h queries} →
        p.openings = p'.openings) := by
  obtain ⟨hcount, queries, t, ht, hlen, hpaths⟩ := exists_of_verify hw hp
  obtain ⟨hcount', queries', t', ht', -, hpaths'⟩ := exists_of_verify hw hp'
  obtain ⟨⟨x, hx⟩, next, hwork, hq, rfl⟩ := (transcript_eq_ok_iff hw).mp ht
  obtain ⟨⟨x', hx'⟩, next', hwork', hq', rfl⟩ := (transcript_eq_ok_iff hw).mp ht'
  obtain rfl := Work.eq_digest_of_verify hwork
  obtain rfl := Work.eq_digest_of_verify hwork'
  rw [← hroot, ← hclaimed] at hq' hwork'
  rw [← hroot] at hx' hpaths'
  obtain ⟨values, halpha⟩ := Extraction.exists_unpack_of_unpackElement hx
  obtain ⟨values', halpha'⟩ := Extraction.exists_unpack_of_unpackElement hx'
  obtain ⟨trimmed, hvalues, rfl⟩ := Extraction.unpackQueries_eq_ok_iff.mp hq
  obtain ⟨trimmed', hvalues', rfl⟩ := Extraction.unpackQueries_eq_ok_iff.mp hq'
  obtain ⟨hhint, rfl⟩ := Extraction.hint_unique (hw _) hvalues hvalues'
  refine ⟨(Extraction.hint_unique (hw _) halpha halpha').1, hhint, ?_, _, _, hlen, ht, ?_, ?_⟩
  · intro hnonce
    rw [← hnonce] at hwork'
    exact Work.eq_of_verify hw hwork hwork'
  · rw [ht', hroot, hclaimed]
  · exact openings_unique hw (hcount.trans hlen.symm) (hcount'.trans hlen.symm) hpaths hpaths'

end

theorem verify_binds_nonces :
    let h : Hasher := ⟨.sha256, fun x => List.replicate 32 (x.headD 0 + 1 + UInt8.ofNat x.length)⟩
    let c : Config := ⟨List.replicate 32 26, ⟨0, by decide⟩, ⟨1, by decide, by decide⟩, .low, rfl⟩
    let o : Merkle.Opening := ⟨0, [List.replicate 32 3]⟩
    let p (n : Nat) (b : UInt8) : Proof :=
      ⟨List.replicate 32 165, ⟨List.replicate 4 [125, 125, 125, 125], List.replicate 16 125⟩, 0,
        List.replicate n 0, ⟨List.replicate 32 b, none⟩,
        ⟨List.replicate 5 [], List.replicate 12 0⟩, List.replicate 5 o⟩
    let queries : List Int := List.replicate 5 0
    (p 8 230).nonce ≠ (p 9 231).nonce ∧
    verify h c (p 8 230) [] = .ok true [] ∧ verify h c (p 9 231) [] = .ok true [] ∧
    (p 8 230).queriesHint = (p 9 231).queriesHint ∧
    Set.InjOn h.digest {x | x ∈ (p 8 230).hashed h queries ++ (p 9 231).hashed h queries} ∧
    (p 8 230).openings = (p 9 231).openings := by
  intro h c o p queries
  have hp : verify h c (p 8 230) [] = .ok true [] := by cbv
  have hp' : verify h c (p 9 231) [] = .ok true [] := by cbv
  have hinj : Set.InjOn h.digest
      {x | x ∈ (p 8 230).hashed h queries ++ (p 9 231).hashed h queries} := by
    have hstrings : ∀ x ∈ (p 8 230).hashed h queries ++ (p 9 231).hashed h queries,
        x ∈ o.hashed h 0 := by decide
    have hnodup : ((o.hashed h 0).map h.digest).Nodup := by decide
    intro x hx y hy
    exact List.inj_on_of_nodup_map hnodup (hstrings x hx) (hstrings y hy)
  have ht : transcript h c (p 8 230) (h.digest (c.seed ++ (p 8 230).root)) =
      .ok queries (List.replicate 32 255) := by cbv
  have hroot : (p 8 230).root = (p 9 231).root := rfl
  have hclaimed : (p 8 230).claimed = (p 9 231).claimed := rfl
  obtain ⟨-, hhint, -, queries', t, -, ht', -, hopenings⟩ :=
    verify_binds (fun _ => List.length_replicate) hroot hclaimed hp hp'
  have hqueries : queries' = queries := (EStateM.Result.ok.inj (ht'.symm.trans ht)).1
  rw [hqueries] at hopenings
  exact ⟨by decide, hp, hp', hhint, hinj, hopenings hinj⟩

end QueryPhase

end HintScript
