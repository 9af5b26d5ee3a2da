import HintScript.Channel
import HintScript.Proofs.Binding
import HintScript.Proofs.Completeness

set_option autoImplicit false

namespace HintScript

open Commitment

namespace Channel

inductive Entry where
  | absorb (c : Commitment)
  | absorbElement (x : QM31)
  | draw
  | squeezeElement
  | squeezeQueries (w : Width) (order : BitOrder)

namespace Entry

def step : Entry → Step
  | absorb c => .absorb c.digest
  | absorbElement x => .absorbElement x
  | draw => .draw
  | squeezeElement => .squeezeElement
  | squeezeQueries w order => .squeezeQueries w.bits order

/-- The digest that is taken in; none where the entry squeezes. -/
def absorbed (h : Hasher) : Entry → Option Bytes
  | absorb c => some c.digest
  | absorbElement x => (ofQM31 h x).toOption.map Commitment.digest
  | draw | squeezeElement | squeezeQueries _ _ => none

def next (h : Hasher) (s : Bytes) (e : Entry) : Bytes := h.digest (s ++ (e.absorbed h).getD [])

def hashed (h : Hasher) (s : Bytes) : Entry → List Bytes
  | absorb c => [s ++ c.digest]
  | absorbElement x => Commitment.hashed h.digest x.items ++ [s ++ nest h.digest x.items]
  | draw | squeezeElement | squeezeQueries _ _ => [s ++ drawMark, s]

/-- Both squeeze, or both take in the same digest; elements that both take in are the same. -/
structure Same (h : Hasher) (e e' : Entry) : Prop where
  absorbed : e.absorbed h = e'.absorbed h
  element : ∀ x x', e = .absorbElement x → e' = .absorbElement x' → x = x'

end Entry

def transcribe (h : Hasher) (es : List Entry) : Channel (List Reply) :=
  es.mapM fun e => e.step.run h

def hashed (h : Hasher) : Bytes → List Entry → List Bytes
  | _, [] => []
  | s, e :: es => e.hashed h s ++ hashed h (e.next h s) es

section

variable {h : Hasher} {s s' : Bytes} {e e' : Entry} {es es' : List Entry}

theorem Entry.absorbed_absorbElement (hw : h.Wide) (x : QM31) :
    (Entry.absorbElement x).absorbed h = some (nest h.digest x.items) := by
  obtain ⟨c, hc, hdigest⟩ := ofQM31_digest hw x
  rw [absorbed, hc, ← hdigest]
  rfl

theorem Entry.run_step (hw : h.Wide) (e : Entry) (s : Bytes) :
    ∃ reply, e.step.run h s = .ok reply (e.next h s) := by
  cases e with
  | absorb c =>
    refine ⟨.done, ?_⟩
    simp only [step, Step.run, bind, EStateM.bind, absorb_eq c.wide]
    rfl
  | absorbElement x =>
    refine ⟨.done, ?_⟩
    simp only [step, Step.run, bind, EStateM.bind, absorbElement_eq hw, next,
      absorbed_absorbElement hw]
    rfl
  | draw =>
    refine ⟨.digest (h.digest (s ++ drawMark)), ?_⟩
    simp only [next, absorbed, Option.getD_none, List.append_nil]
    rfl
  | squeezeElement =>
    obtain ⟨x, hint, hsqueeze, -⟩ := exists_squeezeElement hw s
    refine ⟨.hinted x.components hint, ?_⟩
    simp only [step, Step.run, bind, EStateM.bind, hsqueeze, next, absorbed, Option.getD_none,
      List.append_nil]
    rfl
  | squeezeQueries w order =>
    obtain ⟨queries, hint, hsqueeze, -⟩ := exists_squeezeQueries hw w order s
    refine ⟨.hinted queries hint, ?_⟩
    simp only [step, Step.run, bind, EStateM.bind, hsqueeze, next, absorbed, Option.getD_none,
      List.append_nil]
    rfl

theorem Entry.length_absorbed (hw : h.Wide) {d : Bytes} (hd : e.absorbed h = some d) :
    d.length = digestSize := by
  cases e with
  | absorb c =>
    cases hd
    exact c.wide
  | absorbElement x =>
    rw [absorbed_absorbElement hw] at hd
    cases hd
    exact length_nest hw x.items_ne_nil
  | _ => cases hd

theorem Entry.absorbed_eq (hw : h.Wide)
    (hd : (e.absorbed h).getD [] = (e'.absorbed h).getD []) : e.absorbed h = e'.absorbed h := by
  -- a digest is not empty, so to take one in is told from taking in nothing
  have hne (e : Entry) : e.absorbed h ≠ some [] := by
    intro hnil
    cases length_absorbed hw hnil
  have he := hne e
  have he' := hne e'
  generalize e.absorbed h = d at hd he ⊢
  generalize e'.absorbed h = d' at hd he' ⊢
  cases d <;> cases d' <;> simp_all

theorem Entry.mem_hashed (hw : h.Wide) (e : Entry) (s : Bytes) :
    s ++ (e.absorbed h).getD [] ∈ e.hashed h s := by
  cases e with
  | absorbElement x => simp [absorbed_absorbElement hw, hashed]
  | _ => simp [absorbed, hashed]

/-- One entry binds the state before it and what it takes in. Strings of 64 bytes are hashed where
a digest is taken in, and of 32 where it is not. -/
theorem Entry.binds (hw : h.Wide) (hs : s.length = digestSize) (hs' : s'.length = digestSize)
    (hinj : Set.InjOn h.digest {x | x ∈ e.hashed h s ++ e'.hashed h s'})
    (hnext : e.next h s = e'.next h s') : s = s' ∧ e.Same h e' := by
  have hstring : s ++ (e.absorbed h).getD [] = s' ++ (e'.absorbed h).getD [] :=
    hinj (List.mem_append_left _ (e.mem_hashed hw s))
      (List.mem_append_right _ (e'.mem_hashed hw s')) hnext
  obtain ⟨rfl, hdigest⟩ := List.append_inj hstring (hs.trans hs'.symm)
  have habsorbed := absorbed_eq hw hdigest
  refine ⟨rfl, habsorbed, ?_⟩
  rintro x x' rfl rfl
  rw [absorbed_absorbElement hw, absorbed_absorbElement hw, Option.some_inj] at habsorbed
  have hnest := injOn_of_subset hinj (List.subset_append_left _ _) (List.subset_append_left _ _)
  exact QM31.eq_of_nest hw hnest habsorbed

def last (h : Hasher) (s : Bytes) (es : List Entry) : Bytes := es.foldl (Entry.next h) s

theorem transcribe_eq (hw : h.Wide) (es : List Entry) (s : Bytes) :
    ∃ replies, transcribe h es s = .ok replies (last h s es) := by
  induction es generalizing s with
  | nil => exact ⟨[], rfl⟩
  | cons e es ih =>
    obtain ⟨reply, hreply⟩ := e.run_step hw s
    obtain ⟨replies, hreplies⟩ := ih (e.next h s)
    refine ⟨reply :: replies, ?_⟩
    unfold transcribe at hreplies ⊢
    rw [List.mapM_cons]
    simp only [bind, EStateM.bind, hreply, hreplies]
    rfl

theorem last_binds (hw : h.Wide) (hs : s.length = digestSize) (hs' : s'.length = digestSize)
    (hlen : es.length = es'.length)
    (hinj : Set.InjOn h.digest {x | x ∈ hashed h s es ++ hashed h s' es'})
    (hlast : last h s es = last h s' es') : s = s' ∧ List.Forall₂ (Entry.Same h) es es' := by
  induction es generalizing s s' es' with
  | nil =>
    obtain rfl := List.length_eq_zero_iff.mp hlen.symm
    exact ⟨hlast, .nil⟩
  | cons e es ih =>
    obtain ⟨e', es', rfl⟩ := List.exists_cons_of_length_eq_add_one hlen.symm
    rw [List.length_cons, List.length_cons, Nat.add_right_cancel_iff] at hlen
    have hrest := injOn_of_subset hinj (List.subset_append_right _ _) (List.subset_append_right _ _)
    have hfirst := injOn_of_subset hinj (List.subset_append_left _ _) (List.subset_append_left _ _)
    obtain ⟨hnext, hsame⟩ := ih (hw _) (hw _) hlen hrest hlast
    obtain ⟨rfl, hentry⟩ := Entry.binds hw hs hs' hfirst hnext
    exact ⟨rfl, .cons hentry hsame⟩

/-- Entries of two channels, as many, go through; and if they end in the same state and the hash
tells the strings apart that both hash, they began in the same state and are the same entry by
entry. -/
theorem transcribe_binds (hw : h.Wide) (hs : s.length = digestSize) (hs' : s'.length = digestSize)
    (hlen : es.length = es'.length) :
    ∃ replies replies' t t', transcribe h es s = .ok replies t ∧
      transcribe h es' s' = .ok replies' t' ∧
      (t = t' → Set.InjOn h.digest {x | x ∈ hashed h s es ++ hashed h s' es'} →
        s = s' ∧ List.Forall₂ (Entry.Same h) es es') := by
  obtain ⟨replies, hrun⟩ := transcribe_eq hw es s
  obtain ⟨replies', hrun'⟩ := transcribe_eq hw es' s'
  refine ⟨replies, replies', _, _, hrun, hrun', ?_⟩
  intro hlast hinj
  exact last_binds hw hs hs' hlen hinj hlast

end

theorem transcribe_binds_commitment :
    let h : Hasher := ⟨.sha256, fun x => List.replicate 32 (x.headD 0 + 1 + UInt8.ofNat x.length)⟩
    let s : Bytes := List.replicate 32 5
    let es : List Entry := [.absorbElement 0, .draw]
    let es' : List Entry := [.absorb ⟨List.replicate 32 100, rfl⟩, .squeezeElement]
    ∃ replies replies' t, transcribe h es s = .ok replies t ∧ transcribe h es' s = .ok replies' t ∧
      Set.InjOn h.digest {x | x ∈ hashed h s es ++ hashed h s es'} ∧
      List.Forall₂ (Entry.Same h) es es' := by
  intro h s es es'
  have hw : h.Wide := fun x => List.length_replicate
  have hs : s.length = digestSize := List.length_replicate
  have hlen : es.length = es'.length := rfl
  obtain ⟨replies, replies', t, t', hrun, hrun', hbinds⟩ := transcribe_binds hw hs hs hlen
  have ht : t = t' := by
    obtain ⟨_, hlast⟩ := transcribe_eq hw es s
    obtain ⟨_, hlast'⟩ := transcribe_eq hw es' s
    cases hrun.symm.trans hlast
    cases hrun'.symm.trans hlast'
    rfl
  have hnodup : ((hashed h s es).map h.digest).Nodup := by decide
  have hsplit : hashed h s es = Commitment.hashed h.digest (QM31.items 0) ++ hashed h s es' := rfl
  have hmem (x : Bytes) (hx : x ∈ hashed h s es ++ hashed h s es') : x ∈ hashed h s es := by
    rcases List.mem_append.mp hx with hx | hx
    · exact hx
    · rw [hsplit]
      exact List.mem_append_right _ hx
  have hinj : Set.InjOn h.digest {x | x ∈ hashed h s es ++ hashed h s es'} := by
    intro x hx y hy
    exact List.inj_on_of_nodup_map hnodup (hmem x hx) (hmem y hy)
  subst ht
  exact ⟨replies, replies', t, hrun, hrun', hinj, (hbinds rfl hinj).2⟩

end Channel

end HintScript
