import HintScript.Proofs.BitOrder
import HintScript.Proofs.Word

set_option autoImplicit false

namespace HintScript

open Number Script

def Hint.items (hint : Hint) : List Bytes := hint.units ++ [hint.tail]

namespace Extraction

section

variable {H : Bytes → Bytes} {m l : List Bytes}

def readWords : List Bytes → Option (List (Bytes × Nat))
  | [] => some []
  | u :: us => (Word.ofUnit u).toOption.bind fun p => (readWords us).map (p :: ·)

theorem readUnits_toOption (us : List Bytes) :
    (readUnits us).toOption =
      (readWords us).map (List.map fun p => (p.1, Word.canonical p.2)) := by
  induction us with
  | nil => rfl
  | cons u us ih =>
    unfold readUnits readWords
    cases Word.ofUnit u with
    | error e => rfl
    | ok p =>
      cases hr : readUnits us with
      | error e =>
        rw [hr] at ih
        have hn : readWords us = none := by simpa [Except.toOption] using ih.symm
        rw [hn]
        rfl
      | ok ps =>
        rw [hr] at ih
        obtain ⟨qs, hq, rfl⟩ := Option.map_eq_some_iff.mp ih.symm
        rw [hq]
        rfl

theorem readWords_bounds {us : List Bytes} {ps : List (Bytes × Nat)}
    (h : readWords us = some ps) :
    ps.length = us.length ∧ ∀ p ∈ ps, p.1.length = Word.size ∧ p.2 < 2 ^ 31 := by
  induction us generalizing ps with
  | nil =>
    cases h
    exact ⟨rfl, by simp⟩
  | cons u us ih =>
    obtain ⟨p, hp, h⟩ := Option.bind_eq_some_iff.mp h
    obtain ⟨qs, hq, rfl⟩ := Option.map_eq_some_iff.mp h
    obtain ⟨hlen, hall⟩ := ih hq
    exact ⟨by simp [hlen], List.forall_mem_cons.mpr
      ⟨Word.ofUnit_bounds (toOption_eq_some_iff.mp hp), hall⟩⟩

theorem length_le_of_readWords {us : List Bytes} {ps : List (Bytes × Nat)}
    (h : readWords us = some ps) : ∀ u ∈ us, u.length ≤ Word.size := by
  induction us generalizing ps with
  | nil => simp
  | cons u us ih =>
    obtain ⟨p, hp, h⟩ := Option.bind_eq_some_iff.mp h
    obtain ⟨qs, hq, -⟩ := Option.map_eq_some_iff.mp h
    exact List.forall_mem_cons.mpr
      ⟨Word.length_le_of_ofUnit (toOption_eq_some_iff.mp hp), ih hq⟩

theorem length_flatten_words {ps : List (Bytes × Nat)}
    (h : ∀ p ∈ ps, p.1.length = Word.size ∧ p.2 < 2 ^ 31) :
    (ps.map Prod.fst).flatten.length = Word.size * ps.length := by
  induction ps with
  | nil => rfl
  | cons p ps ih =>
    obtain ⟨hp, hps⟩ := List.forall_mem_cons.mp h
    rw [List.map_cons, List.flatten_cons, List.length_append, ih hps, hp.1, List.length_cons,
      Nat.mul_succ, Nat.add_comm]

theorem unpack_toOption {n : WordCount} {hint : Hint} {digest : Bytes}
    (hu : hint.units.length = n.count) (hd : digest.length = digestSize) :
    (unpack digest hint n).toOption =
      (readWords hint.units).bind fun ps =>
        if (ps.map Prod.fst).flatten ++ hint.tail = digest
        then some (ps.map fun p => Word.canonical p.2) else none := by
  -- the length of the tail need not be checked where the whole is compared
  have hle := n.le
  have hread := readUnits_toOption hint.units
  unfold unpack
  rw [if_neg (by simp [hu])]
  by_cases ht : hint.tail.length = digestSize - Word.size * n.count
  · rw [if_neg (by simp [ht])]
    cases hr : readUnits hint.units with
    | error e =>
      rw [hr] at hread
      have hn : readWords hint.units = none := by simpa [Except.toOption] using hread.symm
      rw [hn]
      rfl
    | ok ps =>
      rw [hr] at hread
      obtain ⟨qs, hq, rfl⟩ := Option.map_eq_some_iff.mp hread.symm
      rw [hq, Option.bind_some]
      simp only [List.map_map, Function.comp_def]
      by_cases he : (qs.map Prod.fst).flatten ++ hint.tail = digest
      · rw [if_pos he, if_neg (by simpa using he)]
        rfl
      · rw [if_neg he, if_pos he]
        rfl
  · rw [if_pos (by simpa using ht)]
    cases hq : readWords hint.units with
    | none => rfl
    | some ps =>
      obtain ⟨hlen, hall⟩ := readWords_bounds hq
      have hne : (ps.map Prod.fst).flatten ++ hint.tail ≠ digest := by
        intro he
        have hsum := congrArg List.length he
        rw [List.length_append, length_flatten_words hall, hlen, hu, hd] at hsum
        omega
      rw [Option.bind_some, if_neg hne]
      rfl

/-- Units are read one after the other, from the deepest; words pile up above the tail. -/
theorem exec_readWords {n : Nat} (us ws : List Bytes) (tail : Bytes) {l : List Bytes}
    (hn : ws.length + us.length = n) (hn' : n < 2 ^ 31) :
    exec (shaEnv H) (times us.length (num n ++ ops [.roll] ++ Word.script))
        ⟨⟨ws ++ tail :: (us.reverse ++ m), l⟩, []⟩ =
      (readWords us).map fun ps =>
        ⟨⟨(ps.map Prod.fst).reverse ++ (ws ++ tail :: m),
          (ps.map fun p => encode p.2).reverse ++ l⟩, []⟩ := by
  induction us generalizing ws l with
  | nil => rfl
  | cons u us ih =>
    have hstack : ws ++ tail :: ((u :: us).reverse ++ m) =
        (ws ++ tail :: us.reverse) ++ u :: m := by simp
    have hlen : (ws ++ tail :: us.reverse).length = n := by
      simp only [List.length_append, List.length_cons, List.length_reverse] at hn ⊢
      omega
    rw [List.length_cons, times_succ, exec_append, exec_append, hstack,
      exec_rollFrom hlen hn', Option.bind_some, Word.exec_script, readWords]
    cases Word.ofUnit u with
    | error e => rfl
    | ok p =>
      have hih := ih (p.1 :: ws) (l := encode p.2 :: l)
        (by simp only [List.length_cons] at hn ⊢; omega)
      simp only [Except.toOption, Option.map_some, Option.bind_some]
      simp only [List.cons_append, List.append_assoc] at hih ⊢
      rw [hih]
      cases readWords us with
      | none => rfl
      | some ps => simp

theorem exec_reverseScript {k : Nat} (xs : List Bytes) (hx : xs.length = k + 1) (hk : k < 2 ^ 31) :
    exec (shaEnv H) (reverseScript k) ⟨⟨xs.reverse ++ m, l⟩, []⟩ =
      some ⟨⟨xs ++ m, l⟩, []⟩ := by
  induction k generalizing xs m with
  | zero =>
    obtain ⟨x, rfl⟩ := List.length_eq_one_iff.mp hx
    rfl
  | succ k ih =>
    cases xs with
    | nil => cases hx
    | cons x xs =>
      rw [List.length_cons, Nat.add_right_cancel_iff] at hx
      rw [reverseScript, exec_append, List.reverse_cons, List.append_assoc,
        ih xs hx (by omega), Option.bind_some]
      by_cases hz : k = 0
      · subst hz
        obtain ⟨y, rfl⟩ := List.length_eq_one_iff.mp hx
        rfl
      · rw [if_neg hz, ← Int.natCast_succ]
        exact exec_rollFrom hx hk

theorem exec_joinWords {xs : List Bytes} {k : Nat} (hx : xs.length = k + 1)
    (hlen : xs.flatten.length ≤ 520) :
    exec (shaEnv H) (times k (ops [.cat])) ⟨⟨xs.reverse ++ m, l⟩, []⟩ =
      some ⟨⟨xs.flatten :: m, l⟩, []⟩ := by
  cases hr : xs.reverse with
  | nil =>
    have hz := congrArg List.length hr
    rw [List.length_reverse, hx] at hz
    cases hz
  | cons y ys =>
    have hxs : xs = ys.reverse ++ [y] := by
      rw [← List.reverse_reverse xs, hr, List.reverse_cons]
    have hys : ys.length = k := by
      simpa [hxs] using hx
    have hflat : xs.flatten = ys.reverse.flatten ++ y := by
      simp [hxs]
    rw [hflat, List.length_append] at hlen
    rw [List.cons_append, ← hys, exec_times_cat ys hlen, hflat]

theorem exec_script (n : WordCount) {hint : Hint} {digest : Bytes}
    (hu : hint.units.length = n.count) (hd : digest.length = digestSize) (hm : m.length < 2 ^ 30) :
    exec (shaEnv H) (script n) ⟨⟨digest :: (m ++ hint.items.reverse), l⟩, []⟩ =
      (unpack digest hint n).toOption.map fun values =>
        ⟨⟨(values.map encode).reverse ++ m, l⟩, []⟩ := by
  have hpos := n.pos
  have hle := n.le
  have hlen : hint.items.length = n.count + 1 := by simp [Hint.items, hu]
  have hfetch := exec_times_fetch (H := H) (m := digest :: m) (l := l) hint.items
    (by rw [List.length_cons, hlen]; omega)
  have hread := exec_readWords (H := H) (n := n.count) (m := digest :: m) (l := l)
    hint.units [] hint.tail (by simpa using hu) (by omega)
  rw [hlen] at hfetch
  rw [hu] at hread
  simp only [Hint.items, List.cons_append, List.nil_append, List.reverse_append, List.reverse_cons,
    List.reverse_nil] at hfetch hread ⊢
  unfold script
  simp only [exec_append]
  rw [hfetch, Option.bind_some, hread, unpack_toOption hu hd]
  cases hw : readWords hint.units with
  | none => rfl
  | some ps =>
    obtain ⟨hps, hall⟩ := readWords_bounds hw
    have hflat := length_flatten_words hall
    rw [hps, hu, Word.size] at hflat
    have hcount : ps.length = n.count - 1 + 1 := by omega
    rw [Option.map_some, Option.bind_some, Option.bind_some,
      exec_joinWords (by rw [List.length_map, hcount]) (by omega), Option.bind_some, exec_swap,
      exec_cat, exec_equalVerify]
    by_cases he : (ps.map Prod.fst).flatten ++ hint.tail = digest
    · have hsum := congrArg List.length he
      rw [List.length_append, hd, digestSize] at hsum
      have halt : (ps.map fun p => encode p.2).reverse = ps.reverse.map fun p => encode p.2 :=
        List.map_reverse.symm
      have hcanon := exec_times_fromAlt (H := H) (l := l) (m := m) (s := Word.canonicalScript)
        (f := fun p : Bytes × Nat => encode p.2) (g := fun p => encode (Word.canonical p.2))
        ps.reverse fun p hp m l => Word.exec_canonicalScript (hall p (by simpa using hp)).2
      rw [List.length_reverse, hps, hu] at hcanon
      rw [if_pos (by omega), if_pos he, if_pos he, exec_ops_nil, Option.bind_some, halt,
        hcanon, Option.bind_some, exec_reverseScript _ (by simpa using hcount) (by omega)]
      simp [List.map_reverse]
    · rw [if_neg he, if_neg he]
      split <;> rfl

theorem unpack_bounds {n : WordCount} {hint : Hint} {digest : Bytes}
    {values : List Int} (hu : hint.units.length = n.count) (hd : digest.length = digestSize)
    (h : (unpack digest hint n).toOption = some values) :
    values.length = n.count ∧ ∀ v ∈ values, 0 ≤ v ∧ v < 2 ^ 31 - 1 := by
  rw [unpack_toOption hu hd] at h
  obtain ⟨ps, hps, h⟩ := Option.bind_eq_some_iff.mp h
  obtain ⟨hlen, hall⟩ := readWords_bounds hps
  split at h
  · cases h
    refine ⟨by rw [List.length_map, hlen, hu], ?_⟩
    intro v hv
    obtain ⟨p, hp, rfl⟩ := List.mem_map.mp hv
    exact Word.canonical_bounds (hall p hp).2
  · cases h

theorem length_items_le_of_unpack {n : WordCount} {hint : Hint} {digest : Bytes}
    {values : List Int} (hu : hint.units.length = n.count) (hd : digest.length = digestSize)
    (h : unpack digest hint n = .ok values) : ∀ y ∈ hint.items, y.length ≤ digestSize := by
  have ho := toOption_eq_some_iff.mpr h
  rw [unpack_toOption hu hd] at ho
  obtain ⟨ps, hps, ho⟩ := Option.bind_eq_some_iff.mp ho
  split at ho
  · rename_i he
    intro y hy
    rcases List.mem_append.mp hy with hy | hy
    · have hlen := length_le_of_readWords hps y hy
      unfold Word.size at hlen
      unfold digestSize
      omega
    · rw [List.mem_singleton.mp hy, ← hd, ← he, List.length_append]
      omega
  · cases ho

theorem unpackQueries_eq_ok_iff {w : Width} {order : BitOrder} {hint : Hint} {digest : Bytes}
    {queries : List Int} :
    unpackQueries digest hint w order = .ok queries ↔
      ∃ values, unpack digest hint .five = .ok values ∧ queries = values.map (order.trim w) := by
  unfold unpackQueries
  cases unpack digest hint .five with
  | error e => exact ⟨nofun, nofun⟩
  | ok values =>
    constructor
    · rintro ⟨⟩
      exact ⟨values, rfl, rfl⟩
    · rintro ⟨_, ⟨⟩, rfl⟩
      rfl

theorem unpackQueries_bounds {w : Width} {order : BitOrder} {hint : Hint} {digest : Bytes}
    {queries : List Int} (hu : hint.units.length = 5) (hd : digest.length = digestSize)
    (h : unpackQueries digest hint w order = .ok queries) :
    queries.length = 5 ∧ ∀ q ∈ queries, 0 ≤ q ∧ q < 2 ^ w.bits := by
  obtain ⟨values, hv, rfl⟩ := unpackQueries_eq_ok_iff.mp h
  obtain ⟨hlen, hall⟩ := unpack_bounds hu hd (toOption_eq_some_iff.mpr hv)
  refine ⟨by rw [List.length_map, hlen]; rfl, ?_⟩
  intro q hq
  obtain ⟨v, hmem, rfl⟩ := List.mem_map.mp hq
  have hb := hall v hmem
  exact order.trim_bounds w hb.1 (by omega)

theorem exec_queriesScript (w : Width) (order : BitOrder) {hint : Hint}
    {digest : Bytes} (hu : hint.units.length = 5) (hd : digest.length = digestSize)
    (hm : m.length < 2 ^ 30) :
    exec (shaEnv H) (queriesScript w order) ⟨⟨digest :: (m ++ hint.items.reverse), l⟩, []⟩ =
      (unpackQueries digest hint w order).toOption.map fun values =>
        ⟨⟨(values.map encode).reverse ++ m, l⟩, []⟩ := by
  have hbounds {values : List Int} (h : (unpack digest hint .five).toOption = some values) :=
    unpack_bounds hu hd h
  unfold queriesScript unpackQueries
  rw [exec_append, exec_append, exec_script .five hu hd hm]
  cases hq : unpack digest hint .five with
  | error e => rfl
  | ok values =>
    obtain ⟨hlen, hall⟩ := hbounds (by rw [hq]; rfl)
    have htrim := exec_times_toAlt (H := H) (m := m) (l := l) (s := order.script w)
      (f := encode) (g := fun v => encode (order.trim w v)) values.reverse fun v hv m l =>
        order.exec_script w (hall v (by simpa using hv)).1
          (by have := (hall v (by simpa using hv)).2; omega)
    have hback := exec_times_fromAlt (H := H) (m := m) (l := l) (s := [])
      (f := fun v => encode (order.trim w v)) (g := fun v => encode (order.trim w v)) values
      fun v hv m l => rfl
    rw [List.length_reverse, hlen] at htrim
    rw [List.append_nil, hlen] at hback
    simp only [List.map_reverse, List.reverse_reverse, WordCount.five] at htrim hback
    simp only [Except.toOption, Option.map_some, Option.bind_some]
    rw [htrim, Option.bind_some, hback]
    simp [bind, Except.bind, pure, Except.pure, List.map_map, Function.comp_def]

theorem reverseScript_shifts (k : Nat) : Shifts (reverseScript k) 0 0 1 := by
  induction k with
  | zero => exact Shifts.nil.of_eq rfl rfl (by decide)
  | succ k ih =>
    rw [reverseScript]
    by_cases hk : k = 0
    · rw [if_pos hk]
      exact (ih.append (.line (s := ops [.swap]) rfl)).of_eq rfl rfl (by decide)
    · rw [if_neg hk]
      exact (ih.append (.line (s := num _ ++ ops [.roll]) rfl)).of_eq rfl rfl (by decide)

theorem script_shifts (n : WordCount) : Shifts (script n) (-2) 0 (n.count + 3) := by
  have hpos := n.pos
  have hread := ((Shifts.line (s := num n.count ++ ops [.roll]) rfl).append
    Word.script_shifts).times_succ (n.count - 1) (k := 1) (by decide) (by decide)
  have hjoin := (Shifts.line (s := ops [.cat]) rfl).times (n.count - 1) (k := 0) (by decide)
    (by decide)
  have hcanon := ((Shifts.line (s := ops [.fromAlt]) rfl).append
    Word.canonicalScript_shifts).times n.count (k := 0) (by decide) (by decide)
  rw [Nat.sub_add_cancel hpos] at hread
  exact ((((((times_fetch_shifts (n.count + 1)).append hread).append hjoin).append
    (.line (s := ops [.swap, .cat, .equalVerify]) rfl)).append hcanon).append
    (reverseScript_shifts (n.count - 1))).of_eq (by omega) (by omega) (by omega)

theorem queriesScript_shifts (w : Width) (order : BitOrder) :
    Shifts (queriesScript w order) (-2) 0 34 := by
  have hscript : Shifts (order.script w) 0 0 32 :=
    (order.script_shifts w).of_eq rfl rfl (Int.ofNat_le.mpr (order.room_le w))
  have htrim := (hscript.append (.line (s := ops [.toAlt]) rfl)).times 5
    (k := 0) (by decide) (by decide)
  have hback := (Shifts.line (s := ops [.fromAlt]) rfl).times 5 (k := 0) (by decide) (by decide)
  exact (((script_shifts .five).append htrim).append hback).of_eq (by decide) (by decide)
    (by decide)

theorem length_of_mem_words {n : Nat} {data word : Bytes} (hn : Word.size * n ≤ data.length)
    (h : word ∈ words n data) : word.length = Word.size := by
  induction n generalizing data with
  | zero => cases h
  | succ n ih =>
    rw [Nat.mul_succ] at hn
    rcases List.mem_cons.mp h with rfl | h
    · rw [List.length_take]
      omega
    · exact ih (by rw [List.length_drop]; omega) h

theorem flatten_words (n : Nat) (data : Bytes) :
    (words n data).flatten ++ data.drop (Word.size * n) = data := by
  induction n generalizing data with
  | zero => simp [words]
  | succ n ih =>
    have hdrop : data.drop (Word.size * (n + 1)) = (data.drop Word.size).drop (Word.size * n) := by
      rw [List.drop_drop, Nat.mul_succ, Nat.add_comm]
    rw [words, List.flatten_cons, List.append_assoc, hdrop, ih, List.take_append_drop]

theorem length_words (n : Nat) (data : Bytes) : (words n data).length = n := by
  induction n generalizing data with
  | zero => rfl
  | succ n ih => rw [words, List.length_cons, ih]

theorem readWords_units {ws : List Bytes} (h : ∀ w ∈ ws, w.length = Word.size) :
    readWords (ws.map Word.unit) = some (ws.map fun w => (w, Word.raw w)) := by
  induction ws with
  | nil => rfl
  | cons w ws ih =>
    obtain ⟨hw, hws⟩ := List.forall_mem_cons.mp h
    rw [List.map_cons, readWords, Word.ofUnit_unit hw, ih hws]
    rfl

theorem unpack_extract {n : WordCount} {digest : Bytes} (hd : digest.length = digestSize) :
    ∃ values hint, extract digest n = .ok (values, hint) ∧ hint.units.length = n.count ∧
      (unpack digest hint n).toOption = some values := by
  have hle := n.le
  have hlen (w : Bytes) (hw : w ∈ words n.count digest) : w.length = Word.size :=
    length_of_mem_words (by rw [hd, Word.size, digestSize]; omega) hw
  have hcount : ((words n.count digest).map Word.unit).length = n.count := by
    rw [List.length_map, length_words]
  refine ⟨_, _, if_pos hd, hcount, ?_⟩
  rw [unpack_toOption hcount hd, readWords_units hlen, Option.bind_some, List.map_map, List.map_map]
  rw [if_pos (by simpa [Function.comp_def] using flatten_words n.count digest)]
  rfl

theorem eq_units_of_readWords {us : List Bytes} {ps : List (Bytes × Nat)}
    (h : readWords us = some ps) :
    us = (ps.map Prod.fst).map Word.unit ∧
      ps.map Prod.snd = (ps.map Prod.fst).map Word.raw := by
  induction us generalizing ps with
  | nil =>
    cases h
    exact ⟨rfl, rfl⟩
  | cons u us ih =>
    obtain ⟨p, hp, h⟩ := Option.bind_eq_some_iff.mp h
    obtain ⟨qs, hq, rfl⟩ := Option.map_eq_some_iff.mp h
    obtain ⟨hunit, hraw⟩ := Word.eq_unit_of_ofUnit (toOption_eq_some_iff.mp hp)
    obtain ⟨hunits, hraws⟩ := ih hq
    simp only [List.map_cons]
    exact ⟨congrArg₂ List.cons hunit hunits, congrArg₂ List.cons hraw hraws⟩

theorem words_flatten {ws : List Bytes} (h : ∀ w ∈ ws, w.length = Word.size) (tail : Bytes) :
    words ws.length (ws.flatten ++ tail) = ws := by
  induction ws with
  | nil => rfl
  | cons w ws ih =>
    obtain ⟨hw, hws⟩ := List.forall_mem_cons.mp h
    rw [List.length_cons, words, List.flatten_cons, List.append_assoc, List.take_left' hw,
      List.drop_left' hw, ih hws]

theorem units_of_unpack {n : WordCount} {hint : Hint} {digest : Bytes} {values : List Int}
    (h : unpack digest hint n = .ok values) : hint.units.length = n.count := by
  unfold unpack at h
  by_contra hne
  rw [if_pos hne] at h
  cases h

/-- The hint that is accepted for a digest is the one that extraction gives. -/
theorem extract_of_unpack {n : WordCount} {hint : Hint} {digest : Bytes} {values : List Int}
    (hd : digest.length = digestSize) (h : unpack digest hint n = .ok values) :
    extract digest n = .ok (values, hint) := by
  have hcount := units_of_unpack h
  have ho := toOption_eq_some_iff.mpr h
  rw [unpack_toOption hcount hd] at ho
  obtain ⟨ps, hps, ho⟩ := Option.bind_eq_some_iff.mp ho
  split at ho
  · rename_i he
    cases ho
    obtain ⟨hlen, hall⟩ := readWords_bounds hps
    obtain ⟨hunits, hraws⟩ := eq_units_of_readWords hps
    have hwords : words n.count digest = ps.map Prod.fst := by
      have hflat := words_flatten (List.forall_mem_map.mpr fun p hp => (hall p hp).1) hint.tail
      rwa [he, List.length_map, hlen, hcount] at hflat
    have htail : digest.drop (Word.size * n.count) = hint.tail := by
      rw [← he]
      exact List.drop_left' (by rw [length_flatten_words hall, hlen, hcount])
    have hvalues : (ps.map Prod.fst).map (fun w => Word.canonical (Word.raw w)) =
        ps.map fun p => Word.canonical p.2 := by
      have hmap := congrArg (List.map fun r : Nat => Word.canonical r) hraws
      simpa [List.map_map, Function.comp_def] using hmap.symm
    rw [extract, if_pos hd]
    simp only [hwords, htail, hvalues, ← hunits]
  · cases ho

end

/-- The script does to a machine what `unpack` says and stops it where that refuses. -/
theorem script_unpacks {h : Hasher} (ho : h.opcode = .sha256) (n : WordCount) {hint : Hint}
    {digest : Bytes} (hu : hint.units.length = n.count) (hd : digest.length = digestSize)
    (rest alt : List Bytes) {m : Machine} (ha : m.active = true)
    (hstack : m.stack = ⟨digest :: (rest ++ hint.items.reverse), alt⟩)
    (hsize : m.stack.size ≤ 1000) :
    match unpack digest hint n with
    | .ok values =>
      m.Attains ⟨h, {}⟩ (script n) (n.count + 3) ⟨(values.map encode).reverse ++ rest, alt⟩
    | .error _ => m.Aborts ⟨h, {}⟩ (script n) := by
  obtain ⟨o, H⟩ := h
  obtain rfl : o = .sha256 := ho
  have hrest : rest.length < 2 ^ 30 := by
    rw [hstack] at hsize
    simp only [Stacks.size, List.length_cons, List.length_append] at hsize
    omega
  have hrun := (script_shifts n).attains_or_aborts (H := H) ha
  rw [hstack, exec_script n hu hd hrest] at hrun
  cases hv : unpack digest hint n with
  | error e =>
    rw [hv] at hrun
    exact hrun
  | ok values =>
    rw [hv] at hrun
    exact hrun

theorem script_unpacks_negativeZero :
    let digest : Bytes := [0, 0, 0, 0x80] ++ [5, 0, 0, 0x80] ++ [0xff, 0xff, 0xff, 0x7f] ++
      List.replicate 20 9
    let hint : Hint := ⟨[[0x80], [0x85], [0xff, 0xff, 0xff, 0x7f]], List.replicate 20 9⟩
    let n : WordCount := ⟨3, by decide, by decide⟩
    let m : Machine := { stack := ⟨digest :: ([[42]] ++ hint.items.reverse), [[9]]⟩ }
    unpack digest hint n = .ok [0, 4, 2147483646] ∧
      m.Leaves ⟨Hasher.sha256, {}⟩ (script n)
        ⟨[[0xfe, 0xff, 0xff, 0x7f], [4], [], [42]], [[9]]⟩ := by
  intro digest hint n m
  have hv : unpack digest hint n = .ok [0, 4, 2147483646] := by cbv
  have hrun := script_unpacks (h := Hasher.sha256) (m := m) rfl n rfl rfl [[42]] [[9]] rfl rfl
    (by decide)
  rw [hv] at hrun
  exact ⟨hv, hrun.leaves (by decide)⟩

/-- The value at place `i` of a digest, from the little-endian number that four bytes make without
the top bit. -/
def valueAt (digest : Bytes) (i : Nat) : Int :=
  Word.canonical (Bytes.toNatLE ((digest.drop (Word.size * i)).take Word.size) % 2 ^ 31 : Nat)

theorem valueAt_bounds (digest : Bytes) (i : Nat) :
    0 ≤ valueAt digest i ∧ valueAt digest i < 2 ^ 31 - 1 :=
  Word.canonical_bounds (Nat.mod_lt _ (by decide))

theorem words_eq (n : Nat) (data : Bytes) :
    words n data = (List.range n).map fun i => (data.drop (Word.size * i)).take Word.size := by
  induction n generalizing data with
  | zero => rfl
  | succ n ih =>
    have hnext (i : Nat) : Word.size + Word.size * i = Word.size * (i + 1) := by
      rw [Nat.mul_succ, Nat.add_comm]
    rw [words, ih, List.range_succ_eq_map, List.map_cons, List.map_map]
    simp only [Function.comp_def, List.drop_drop, hnext, Nat.succ_eq_add_one]
    rfl

theorem extract_eq {digest : Bytes} (hd : digest.length = digestSize) (n : WordCount) :
    ∃ hint, extract digest n = .ok ((List.range n.count).map (valueAt digest), hint) := by
  have hle := n.le
  have hvalues : (words n.count digest).map (fun w => Word.canonical (Word.raw w)) =
      (List.range n.count).map (valueAt digest) := by
    rw [words_eq, List.map_map]
    refine List.map_congr_left fun i hi => ?_
    have hi' := List.mem_range.mp hi
    have hlen : ((digest.drop (Word.size * i)).take Word.size).length = Word.size := by
      rw [List.length_take, List.length_drop, hd, Word.size, digestSize]
      omega
    rw [Function.comp_apply, Word.raw_eq hlen, valueAt]
  rw [← hvalues]
  exact ⟨_, if_pos hd⟩

theorem unpack_eq_ok_iff {n : WordCount} {hint : Hint} {digest : Bytes} {values : List Int}
    (hd : digest.length = digestSize) :
    unpack digest hint n = .ok values ↔ extract digest n = .ok (values, hint) := by
  constructor
  · exact extract_of_unpack hd
  · intro h
    obtain ⟨vs, own, hown, -, hv⟩ := unpack_extract (n := n) hd
    rw [hown] at h
    cases h
    exact toOption_eq_some_iff.mp hv

theorem extractQueries_eq {digest : Bytes} {values : List Int} {hint : Hint}
    (h : extract digest .five = .ok (values, hint)) (w : Width) (order : BitOrder) :
    extractQueries digest w order = .ok (values.map (order.trim w), hint) := by
  unfold extractQueries
  rw [h]
  rfl

theorem accepted_hint {digest : Bytes} (hd : digest.length = digestSize) (n : WordCount) :
    ∃ own, extract digest n = .ok ((List.range n.count).map (valueAt digest), own) ∧
      ∀ hint values, unpack digest hint n = .ok values ↔
        hint = own ∧ values = (List.range n.count).map (valueAt digest) := by
  obtain ⟨own, hown⟩ := extract_eq hd n
  refine ⟨own, hown, fun hint values => ?_⟩
  rw [unpack_eq_ok_iff hd, hown, Except.ok.injEq, Prod.mk.injEq, and_comm, eq_comm,
    @eq_comm _ values]

/-- Hints are complete and unique. The hint that extraction gives for a digest is accepted, no other
hint of any form is, and the values are those that extraction gives: by place, the words without
their top bits, taken into the field. The same hint, and no other, is accepted for five indices. -/
theorem hint_accepted_iff {digest : Bytes} (hd : digest.length = digestSize) :
    (∀ n : WordCount, ∃ own,
      extract digest n = .ok ((List.range n.count).map (valueAt digest), own) ∧
      ∀ hint values, unpack digest hint n = .ok values ↔
        hint = own ∧ values = (List.range n.count).map (valueAt digest)) ∧
    (∀ i, 0 ≤ valueAt digest i ∧ valueAt digest i ≤ modulus - 1) ∧
    ∀ (w : Width) (order : BitOrder), ∃ own queries,
      extract digest .five = .ok ((List.range 5).map (valueAt digest), own) ∧
      queries = (List.range 5).map (fun i => order.trim w (valueAt digest i)) ∧
      extractQueries digest w order = .ok (queries, own) ∧
      (∀ hint qs, unpackQueries digest hint w order = .ok qs ↔ hint = own ∧ qs = queries) ∧
      ∀ q ∈ queries, 0 ≤ q ∧ q < 2 ^ w.bits := by
  refine ⟨accepted_hint hd, fun i => ?_, fun w order => ?_⟩
  · have hb := valueAt_bounds digest i
    unfold modulus
    omega
  · obtain ⟨own, hown, hiff⟩ := accepted_hint hd .five
    have hqueries : ((List.range 5).map (valueAt digest)).map (order.trim w) =
        (List.range 5).map fun i => order.trim w (valueAt digest i) := List.map_map
    refine ⟨own, _, hown, rfl, ?_, fun hint qs => ?_, fun q hq => ?_⟩
    · rw [← hqueries]
      exact extractQueries_eq hown w order
    · rw [unpackQueries_eq_ok_iff, ← hqueries]
      constructor
      · rintro ⟨values, hv, rfl⟩
        obtain ⟨rfl, rfl⟩ := (hiff hint values).mp hv
        exact ⟨rfl, rfl⟩
      · rintro ⟨rfl, rfl⟩
        exact ⟨_, (hiff hint _).mpr ⟨rfl, rfl⟩, rfl⟩
    · obtain ⟨i, -, rfl⟩ := List.mem_map.mp hq
      have hb := valueAt_bounds digest i
      exact order.trim_bounds w hb.1 (by omega)

theorem hint_accepted_iff_negativeZero :
    let tail : Bytes := List.replicate 12 9
    let digest : Bytes := [0, 0, 0, 0x80] ++ [5, 0, 0, 0x80] ++ [0xff, 0xff, 0xff, 0x7f] ++
      [0, 0, 0, 0] ++ [0xff, 0xff, 0xff, 0xff] ++ tail
    let units (first second : Bytes) : List Bytes :=
      [first, second, [0xff, 0xff, 0xff, 0x7f], [], [0xff, 0xff, 0xff, 0xff]]
    unpack digest ⟨units [0x80] [0x85], tail⟩ .five = .ok [0, 4, 2147483646, 0, 2147483646] ∧
      (∀ values, unpack digest ⟨units [0, 0, 0, 0x80] [0x85], tail⟩ .five ≠ .ok values) ∧
      ∀ values, unpack digest ⟨units [0x80] [5, 0x80], tail⟩ .five ≠ .ok values := by
  intro tail digest units
  have hv : unpack digest ⟨units [0x80] [0x85], tail⟩ .five =
    .ok [0, 4, 2147483646, 0, 2147483646] := by cbv
  obtain ⟨own, -, hiff⟩ := (hint_accepted_iff (show digest.length = digestSize from rfl)).1 .five
  obtain ⟨rfl, -⟩ := (hiff _ _).mp hv
  refine ⟨hv, fun values h => ?_, fun values h => ?_⟩
  · have hunits := congrArg Hint.units ((hiff _ _).mp h).1
    exact absurd hunits (by decide)
  · have hunits := congrArg Hint.units ((hiff _ _).mp h).1
    exact absurd hunits (by decide)

end Extraction

end HintScript
