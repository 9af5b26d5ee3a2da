import HintScript.Channel
import HintScript.Proofs.Commitment
import HintScript.Proofs.Extraction
import HintScript.Proofs.Field

set_option autoImplicit false

namespace HintScript

open Number Script

theorem ofExcept_ok_bind {σ α β : Type} (a : α) (f : α → EStateM Error σ β) :
    (ofExcept (.ok a : Except Error α) >>= f) = f a := rfl

namespace QM31

theorem length_encode_component {x : QM31} {v : Int} (hv : v ∈ x.components) :
    (encode v).length ≤ 4 := by
  have hb := x.components_bounds v hv
  rw [length_encode]
  exact width_le_four (by omega)

theorem items_fit (x : QM31) : Short x.items.dropLast := by
  intro y hy
  obtain ⟨v, hv, rfl⟩ := List.mem_map.mp ((List.dropLast_sublist _).subset hy)
  have hlen := length_encode_component hv
  omega

end QM31

theorem Extraction.unpackElement_toOption {hint : Hint} {digest : Bytes}
    (hu : hint.units.length = 4) (hd : digest.length = digestSize) :
    (unpackElement digest hint).toOption.map QM31.components =
      (unpack digest hint .four).toOption := by
  have hbounds {values : List Int} (h : (unpack digest hint .four).toOption = some values) :=
    unpack_bounds hu hd h
  unfold unpackElement
  cases hq : unpack digest hint .four with
  | error e => rfl
  | ok values =>
    obtain ⟨hlen, hall⟩ := hbounds (by rw [hq]; rfl)
    match values with
    | [a, b, c, d] => exact congrArg some (QM31.components_ofInts_of_bounds hall)

theorem Extraction.exists_unpackElement_iff {hint : Hint} {digest : Bytes}
    (hu : hint.units.length = 4) (hd : digest.length = digestSize) :
    (∃ x, unpackElement digest hint = .ok x) ↔ ∃ values, unpack digest hint .four = .ok values := by
  have hsame := unpackElement_toOption hu hd
  constructor
  · rintro ⟨x, hx⟩
    rw [hx] at hsame
    exact ⟨_, toOption_eq_some_iff.mp hsame.symm⟩
  · rintro ⟨values, hv⟩
    rw [hv] at hsame
    obtain ⟨x, hx, -⟩ := Option.map_eq_some_iff.mp hsame
    exact ⟨x, toOption_eq_some_iff.mp hx⟩

namespace Channel

variable {h : Hasher} {s : Bytes}

theorem absorb_eq {c : Bytes} (hc : c.length = digestSize) :
    absorb h c s = .ok () (h.digest (s ++ c)) := by
  simp only [absorb, hc, ne_eq, not_true_eq_false, if_false]
  rfl

theorem absorbElement_eq (hw : h.Wide) (x : QM31) :
    absorbElement h x s =
      .ok () (h.digest (s ++ Commitment.nest h.digest x.items)) := by
  obtain ⟨c, hc, hdigest⟩ := Commitment.ofQM31_digest hw x
  simp only [absorbElement, hc, ← hdigest]
  rfl

def afterElement (H : Bytes → Bytes) (s : Bytes) (x : QM31) : Bytes :=
  H (s ++ Commitment.nest H x.items)

theorem absorbElements_eq (hw : h.Wide) (xs : List QM31) :
    absorbElements h xs s = .ok () (xs.foldl (afterElement h.digest) s) := by
  induction xs generalizing s with
  | nil => rfl
  | cons x xs ih =>
    simp only [absorbElements, bind, EStateM.bind, absorbElement_eq hw]
    exact ih

theorem checkElement_draws (hint : Hint) :
    checkElement h hint s =
      (ofExcept (Extraction.unpackElement (h.digest (s ++ drawMark)) hint) : Channel QM31)
        (h.digest s) := rfl

theorem checkElement_eq (hint : Hint) :
    checkElement h hint s =
      match Extraction.unpackElement (h.digest (s ++ drawMark)) hint with
      | .ok x => .ok x (h.digest s)
      | .error e => .error e (h.digest s) := by
  rw [checkElement_draws]
  cases Extraction.unpackElement (h.digest (s ++ drawMark)) hint <;> rfl

theorem ofLogn_bits (w : Width) : Width.ofLogn w.bits = .ok w := by
  have hpos := w.pos
  have hle := w.le
  unfold Width.ofLogn Width.of?
  rw [dif_pos (by omega)]
  simp

theorem checkQueries_draws (hint : Hint) (w : Width) (order : BitOrder) :
    checkQueries h hint w.bits order s =
      (ofExcept (Extraction.unpackQueries (h.digest (s ++ drawMark)) hint w order) :
        Channel (List Int)) (h.digest s) := by
  unfold checkQueries
  rw [ofLogn_bits]
  rfl

theorem checkQueries_eq (hint : Hint) (w : Width) (order : BitOrder) :
    checkQueries h hint w.bits order s =
      match Extraction.unpackQueries (h.digest (s ++ drawMark)) hint w order with
      | .ok x => .ok x (h.digest s)
      | .error e => .error e (h.digest s) := by
  rw [checkQueries_draws]
  cases Extraction.unpackQueries (h.digest (s ++ drawMark)) hint w order <;> rfl

section

variable {H : Bytes → Bytes} {m l : List Bytes}

theorem exec_absorbScript {c : Bytes} :
    exec (shaEnv H) (absorbScript ⟨.sha256, H⟩) ⟨⟨c :: s :: m, l⟩, []⟩ =
      if s.length + c.length ≤ 520 then some ⟨⟨H (s ++ c) :: m, l⟩, []⟩ else none := by
  unfold absorbScript
  rw [exec_append, exec_cat]
  split <;> rfl

theorem absorbScript_shifts (H : Bytes → Bytes) : Shifts (absorbScript ⟨.sha256, H⟩) (-1) 0 0 :=
  .line rfl

theorem exec_absorbElementScript (hH : ∀ data, (H data).length = digestSize)
    (hs : s.length = digestSize) {xs : List Bytes} (hx : xs.length = 4) :
    exec (shaEnv H) (absorbElementScript ⟨.sha256, H⟩) ⟨⟨xs.reverse ++ s :: m, l⟩, []⟩ =
      if Short xs.dropLast
      then some ⟨⟨H (s ++ Commitment.nest H xs) :: m, l⟩, []⟩ else none := by
  have hne : xs ≠ [] := fun h0 => by simp [h0] at hx
  have hlen := Commitment.length_nest hH hne
  unfold absorbElementScript
  rw [exec_append, ← hx, Commitment.exec_script hH hne]
  by_cases hall : Short xs.dropLast
  · rw [if_pos hall, if_pos hall, Option.bind_some,
      exec_absorbScript, if_pos (by rw [hs, hlen]; decide)]
  · rw [if_neg hall, if_neg hall]
    rfl

theorem absorbElementScript_shifts (H : Bytes → Bytes) :
    Shifts (absorbElementScript ⟨.sha256, H⟩) (-4) 0 0 :=
  ((Commitment.script_shifts H 3).append (absorbScript_shifts H)).of_eq (by decide) rfl (by decide)

theorem exec_commitElements (hH : ∀ data, (H data).length = digestSize) (xs : List QM31)
    {l : List Bytes} :
    exec (shaEnv H) (times xs.length (Commitment.script ⟨.sha256, H⟩ 4 ++ ops [.toAlt]))
        ⟨⟨xs.flatMap (fun x => x.items.reverse) ++ m, l⟩, []⟩ =
      some ⟨⟨m, (xs.map fun x => Commitment.nest H x.items).reverse ++ l⟩, []⟩ := by
  induction xs generalizing l with
  | nil => rfl
  | cons x xs ih =>
    have hcommit := Commitment.exec_script (l := l) hH
      (m := xs.flatMap (fun x => x.items.reverse) ++ m) x.items_ne_nil
    rw [if_pos x.items_fit] at hcommit
    rw [List.length_cons, times_succ, exec_append, exec_append, List.flatMap_cons,
      List.append_assoc]
    change (((exec (shaEnv H) (Commitment.script ⟨.sha256, H⟩ x.items.length) _).bind _).bind
      _) = _
    rw [hcommit, Option.bind_some, exec_toAlt, exec_ops_nil, Option.bind_some, ih]
    simp

theorem exec_absorbAll (hH : ∀ data, (H data).length = digestSize)
    (cs : List Bytes) (hc : ∀ c ∈ cs, c.length = digestSize) {s : Bytes}
    (hs : s.length = digestSize) :
    exec (shaEnv H) (times cs.length (ops [.fromAlt] ++ absorbScript ⟨.sha256, H⟩))
        ⟨⟨s :: m, cs ++ l⟩, []⟩ =
      some ⟨⟨cs.foldl (fun s c => H (s ++ c)) s :: m, l⟩, []⟩ := by
  induction cs generalizing s with
  | nil => rfl
  | cons c cs ih =>
    obtain ⟨hlen, hrest⟩ := List.forall_mem_cons.mp hc
    rw [List.length_cons, times_succ, exec_append, exec_append, List.cons_append, exec_fromAlt,
      exec_ops_nil, Option.bind_some, exec_absorbScript, if_pos (by rw [hs, hlen]; decide),
      Option.bind_some, ih hrest (hH _)]
    rfl

/-- Commitments are put aside, the last element's first, and come back in the order of the
elements. -/
theorem exec_absorbElementsScript (hH : ∀ data, (H data).length = digestSize)
    (hs : s.length = digestSize) (xs : List QM31) :
    exec (shaEnv H) (absorbElementsScript ⟨.sha256, H⟩ xs.length)
        ⟨⟨(xs.flatMap QM31.items).reverse ++ s :: m, l⟩, []⟩ =
      some ⟨⟨xs.foldl (afterElement H) s :: m, l⟩, []⟩ := by
  have hcommit := exec_commitElements (m := s :: m) (l := l) hH xs.reverse
  have habsorb := exec_absorbAll (m := m) (l := l) hH
    (xs.map fun x => Commitment.nest H x.items)
    (fun c hc => by
      obtain ⟨x, -, rfl⟩ := List.mem_map.mp hc
      exact Commitment.length_nest hH x.items_ne_nil) hs
  rw [List.length_reverse, List.map_reverse, List.reverse_reverse] at hcommit
  rw [List.length_map, List.foldl_map] at habsorb
  unfold absorbElementsScript
  rw [exec_append, List.reverse_flatMap]
  change (exec _ _ ⟨⟨xs.reverse.flatMap (fun x => x.items.reverse) ++ s :: m, l⟩, []⟩).bind _ = _
  rw [hcommit, Option.bind_some, habsorb]
  rfl

theorem absorbElementsScript_shifts (H : Bytes → Bytes) (n : Nat) :
    Shifts (absorbElementsScript ⟨.sha256, H⟩ n) (-4 * n) 0 0 := by
  have hcommit := ((Commitment.script_shifts H 3).append
    (.line (s := ops [.toAlt]) rfl)).times n (k := 0) (by decide) (by decide)
  have habsorb := ((Shifts.line (s := ops [.fromAlt]) rfl).append
    (absorbScript_shifts H)).times n (k := 0) (by decide) (by decide)
  exact (hcommit.append habsorb).of_eq (by omega) (by omega) (by omega)

theorem exec_drawScript (hs : s.length = digestSize) :
    exec (shaEnv H) (drawScript ⟨.sha256, H⟩) ⟨⟨s :: m, l⟩, []⟩ =
      some ⟨⟨H (s ++ drawMark) :: H s :: m, l⟩, []⟩ := by
  have hcat : s.length + drawMark.length ≤ 520 := by
    rw [hs]
    decide
  change exec (shaEnv H) (ops [.dup] ++ ops [.sha256] ++ ops [.swap] ++ bytes drawMark ++
    ops [.cat] ++ ops [.sha256]) _ = _
  simp only [exec_append, exec_dup, exec_sha256, exec_swap, exec_ops_nil, Option.bind_some]
  rw [exec_bytes (by decide), Option.bind_some, exec_cat, if_pos hcat, exec_ops_nil,
    Option.bind_some, exec_sha256, exec_ops_nil]

theorem drawScript_shifts (H : Bytes → Bytes) : Shifts (drawScript ⟨.sha256, H⟩) 1 0 2 := .line rfl

theorem exec_squeezeElementScript (hH : ∀ data, (H data).length = digestSize)
    (hs : s.length = digestSize) {hint : Hint} (hu : hint.units.length = 4)
    (hm : m.length < 2 ^ 30 - 1) :
    exec (shaEnv H) (squeezeElementScript ⟨.sha256, H⟩)
        ⟨⟨s :: (m ++ hint.items.reverse), l⟩, []⟩ =
      (Extraction.unpack (H (s ++ drawMark)) hint .four).toOption.map fun values =>
        ⟨⟨(values.map encode).reverse ++ H s :: m, l⟩, []⟩ := by
  unfold squeezeElementScript
  rw [exec_append, exec_drawScript hs, Option.bind_some, ← List.cons_append,
    Extraction.exec_script .four hu (hH _) (by rw [List.length_cons]; omega)]

theorem squeezeElementScript_shifts (H : Bytes → Bytes) :
    Shifts (squeezeElementScript ⟨.sha256, H⟩) (-1) 0 10 :=
  ((drawScript_shifts H).append (Extraction.script_shifts .four)).of_eq rfl rfl (by decide)

theorem exec_squeezeQueriesScript (hH : ∀ data, (H data).length = digestSize)
    (hs : s.length = digestSize) (w : Width) (order : BitOrder) {hint : Hint}
    (hu : hint.units.length = 5) (hm : m.length < 2 ^ 30 - 1) :
    exec (shaEnv H) (squeezeQueriesScript ⟨.sha256, H⟩ w order)
        ⟨⟨s :: (m ++ hint.items.reverse), l⟩, []⟩ =
      (Extraction.unpackQueries (H (s ++ drawMark)) hint w order).toOption.map
        fun values => ⟨⟨(values.map encode).reverse ++ H s :: m, l⟩, []⟩ := by
  unfold squeezeQueriesScript
  rw [exec_append, exec_drawScript hs, Option.bind_some, ← List.cons_append,
    Extraction.exec_queriesScript w order hu (hH _) (by rw [List.length_cons]; omega)]

theorem squeezeQueriesScript_shifts (H : Bytes → Bytes) (w : Width) (order : BitOrder) :
    Shifts (squeezeQueriesScript ⟨.sha256, H⟩ w order) (-1) 0 35 :=
  ((drawScript_shifts H).append (Extraction.queriesScript_shifts w order)).of_eq rfl rfl
    (by decide)

/-- The hint is taken from the bottom: what `check` makes of it is left above the new state, and the
script stops where `check` refuses it. -/
theorem squeeze_leaves_or_aborts {α : Type} {script : Script} {d a p : Int}
    (hscript : Shifts script d a p) {machine : Machine} (ha : machine.active = true) {hint : Hint}
    (hstack : machine.stack = ⟨s :: (m ++ hint.items.reverse), l⟩)
    (hroom : (machine.stack.size : Int) + p ≤ 1000) {check : Channel α} {unpacked : Except Error α}
    (hcheck : check s = (ofExcept unpacked : Channel α) (H s)) {items : α → List Bytes}
    (hexec : m.length < 2 ^ 30 - 1 →
      exec (shaEnv H) script ⟨⟨s :: (m ++ hint.items.reverse), l⟩, []⟩ =
        unpacked.toOption.map fun x => ⟨⟨(items x).reverse ++ H s :: m, l⟩, []⟩) :
    (∀ x next, check s = .ok x next →
      machine.Leaves (shaEnv H) script ⟨(items x).reverse ++ next :: m, l⟩) ∧
    ∀ e next, check s = .error e next → machine.Aborts (shaEnv H) script := by
  have hm : m.length < 2 ^ 30 - 1 := by
    have hp := hscript.room_nonneg
    have hsize := congrArg Stacks.size hstack
    simp only [Stacks.size, List.length_cons, List.length_append] at hsize hroom
    omega
  rw [← hstack] at hexec
  refine ⟨fun x next hok => ?_, fun e next hno => ?_⟩
  · cases unpacked with
    | error e => cases hcheck.symm.trans hok
    | ok x =>
      cases hcheck.symm.trans hok
      exact hscript.leaves ha hroom (hexec hm)
  · cases unpacked with
    | error e => exact hscript.aborts ha hroom (hexec hm)
    | ok x => cases hcheck.symm.trans hno

end

/-- The channel's scripts on a machine: state and inputs on top are replaced by what the channel
computes, a hint is taken from the bottom, and a script stops where the channel refuses its hint.
The rest of the main stack and the alt stack stay as they are. -/
theorem scripts_simulate_channel {h : Hasher} (ho : h.opcode = .sha256) (hw : h.Wide)
    {state : Bytes} (hs : state.length = digestSize) (rest alt : List Bytes) {m : Machine}
    (ha : m.active = true) :
    (∀ c : Bytes, c.length = digestSize → m.stack = ⟨c :: state :: rest, alt⟩ →
      m.stack.size ≤ 1000 →
      ∃ next, absorb h c state = .ok () next ∧
        m.Leaves ⟨h, {}⟩ (absorbScript h) ⟨next :: rest, alt⟩) ∧
    (∀ x : QM31, m.stack = ⟨x.items.reverse ++ state :: rest, alt⟩ → m.stack.size ≤ 1000 →
      ∃ next, absorbElement h x state = .ok () next ∧
        m.Leaves ⟨h, {}⟩ (absorbElementScript h) ⟨next :: rest, alt⟩) ∧
    (∀ xs : List QM31, xs ≠ [] → m.stack = ⟨(xs.flatMap QM31.items).reverse ++ state :: rest, alt⟩ →
      m.stack.size ≤ 1000 →
      ∃ next s, absorbElements h xs state = .ok () next ∧
        absorbElementsScriptFor h xs.length = .ok s ∧ m.Leaves ⟨h, {}⟩ s ⟨next :: rest, alt⟩) ∧
    (∀ hint : Hint, hint.units.length = 4 →
      m.stack = ⟨state :: (rest ++ hint.items.reverse), alt⟩ →
      m.stack.size + 10 ≤ 1000 →
      match checkElement h hint state with
      | .ok x next =>
        m.Leaves ⟨h, {}⟩ (squeezeElementScript h) ⟨x.items.reverse ++ next :: rest, alt⟩
      | .error _ _ => m.Aborts ⟨h, {}⟩ (squeezeElementScript h)) ∧
    (∀ (w : Width) (order : BitOrder) (hint : Hint), hint.units.length = 5 →
      m.stack = ⟨state :: (rest ++ hint.items.reverse), alt⟩ →
      m.stack.size + 35 ≤ 1000 →
      match checkQueries h hint w.bits order state with
      | .ok queries next =>
        m.Leaves ⟨h, {}⟩ (squeezeQueriesScript h w order)
          ⟨(queries.map encode).reverse ++ next :: rest, alt⟩
      | .error _ _ => m.Aborts ⟨h, {}⟩ (squeezeQueriesScript h w order)) := by
  obtain ⟨o, H⟩ := h
  obtain rfl : o = .sha256 := ho
  refine ⟨?_, ?_, ?_, ?_, ?_⟩
  · intro c hc hstack hroom
    refine ⟨_, absorb_eq hc, (absorbScript_shifts H).leaves ha (by omega) ?_⟩
    rw [hstack, exec_absorbScript, if_pos (by rw [hs, hc]; decide)]
  · intro x hstack hroom
    refine ⟨_, absorbElement_eq hw x, (absorbElementScript_shifts H).leaves ha (by omega) ?_⟩
    rw [hstack, exec_absorbElementScript hw hs rfl, if_pos x.items_fit]
  · intro xs hne hstack hroom
    have hpos : 0 < xs.length := List.length_pos_iff.mpr hne
    refine ⟨_, _, absorbElements_eq hw xs, if_neg (by omega),
      (absorbElementsScript_shifts H xs.length).leaves ha (by omega) ?_⟩
    rw [hstack, exec_absorbElementsScript hw hs]
  · intro hint hu hstack hroom
    have hexec (hrest : rest.length < 2 ^ 30 - 1) :=
      exec_squeezeElementScript (l := alt) hw hs hu hrest
    rw [← Extraction.unpackElement_toOption hu (hw (state ++ drawMark)), Option.map_map] at hexec
    obtain ⟨hleaves, haborts⟩ := squeeze_leaves_or_aborts (squeezeElementScript_shifts H) ha hstack
      (by omega) (checkElement_draws (h := ⟨.sha256, H⟩) hint) hexec
    split
    case h_1 x next hok => exact hleaves x next hok
    case h_2 e next hno => exact haborts e next hno
  · intro w order hint hu hstack hroom
    obtain ⟨hleaves, haborts⟩ := squeeze_leaves_or_aborts (squeezeQueriesScript_shifts H w order)
      ha hstack (by omega) (checkQueries_draws (h := ⟨.sha256, H⟩) hint w order)
      (exec_squeezeQueriesScript hw hs w order hu)
    split
    case h_1 queries next hok => exact hleaves queries next hok
    case h_2 e next hno => exact haborts e next hno

theorem scripts_simulate_channel_sevens :
    let digest : Bytes := List.replicate 16 7 ++ List.replicate 16 0
    let h : Hasher := ⟨.sha256, fun _ => digest⟩
    let hint : Hint := ⟨List.replicate 4 [7, 7, 7, 7] ++ [[]], List.replicate 12 0⟩
    let w : Width := ⟨3, by decide, by decide⟩
    let m : Machine :=
      { stack := ⟨digest :: ([[42]] ++ hint.items.reverse), [[9]]⟩ }
    m.Leaves ⟨h, {}⟩ (squeezeQueriesScript h w .low)
      ⟨[[], [6], [6], [6], [6], digest, [42]], [[9]]⟩ := by
  intro digest h hint w m
  have hsize : m.stack.size + 35 ≤ 1000 := by decide
  have hq : checkQueries h hint w.bits .low digest = .ok [6, 6, 6, 6, 0] digest := by cbv
  have hleaves := (scripts_simulate_channel (h := h) (m := m) rfl (fun _ => rfl) rfl [[42]] [[9]]
    rfl).2.2.2.2 w .low hint rfl rfl hsize
  rw [hq] at hleaves
  exact hleaves

end Channel

end HintScript
