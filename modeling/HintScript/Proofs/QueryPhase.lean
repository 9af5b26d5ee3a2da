import HintScript.Proofs.Merkle
import HintScript.Proofs.Work
import HintScript.QueryPhase

/-! The query phase on the machine: which items make its script succeed.

The script takes a fixed number of items from the bottom of the stack, so a run that ends with one
item has been given exactly that number, and their places are known.
-/

set_option autoImplicit false

namespace HintScript.QueryPhase

open Number Script Commitment

structure Block where
  leaf : List Bytes
  siblings : List Bytes

namespace Block

def items (b : Block) : List Bytes := b.leaf ++ b.siblings

structure Shaped (c : Config) (b : Block) : Prop where
  leaf : b.leaf.length = 4
  siblings : b.siblings.length = c.width.bits

theorem length_items {c : Config} {bs : List Block} (h : ∀ b ∈ bs, b.Shaped c) :
    (bs.flatMap items).length = bs.length * (4 + c.width.bits) := by
  induction bs with
  | nil => simp
  | cons b bs ih =>
    obtain ⟨hb, hbs⟩ := List.forall_mem_cons.mp h
    rw [List.flatMap_cons, List.length_append, ih hbs, items, List.length_append, hb.leaf,
      hb.siblings, List.length_cons, Nat.succ_mul, Nat.add_comm]

/-- What the script asks of an opening. -/
structure LeadsTo (H : Bytes → Bytes) (root : Bytes) (query : Int) (b : Block) : Prop where
  leaf : Short b.leaf.dropLast
  siblings : Short b.siblings
  path : Merkle.climb ⟨.sha256, H⟩ (nest H b.leaf) query.toNat b.siblings = root

end Block

/-- The items that the script takes from the bottom of the stack. -/
structure Hints (c : Config) where
  root : Bytes
  alpha : Hint
  claimed : List Bytes
  nonce : Bytes
  suffix : Bytes
  msb : Option Bytes
  queries : Hint
  /-- In the order of the queries. -/
  blocks : List Block
  alpha_units : alpha.units.length = 4
  claimed_length : claimed.length = 4
  msb_isSome : msb.isSome = true ↔ c.difficulty.rem ≠ 0
  queries_units : queries.units.length = 5
  blocks_length : blocks.length = queryCount
  blocks_shaped : ∀ b ∈ blocks, b.Shaped c

namespace Hints

variable {c : Config}

def workItems (x : Hints c) : List Bytes := x.nonce :: x.suffix :: x.msb.toList

/-- All items, the deepest first. The script opens the last query first. -/
def items (x : Hints c) : List Bytes :=
  [x.root] ++ x.alpha.items ++ x.claimed ++ x.workItems ++ x.queries.items ++
    x.blocks.reverse.flatMap Block.items

def count (c : Config) : Nat :=
  18 + (if c.difficulty.rem = 0 then 0 else 1) + queryCount * (4 + c.width.bits)

theorem count_le (c : Config) : count c ≤ 194 := by
  have hle := c.width.le
  unfold count queryCount
  split <;> omega

theorem length_workItems (x : Hints c) :
    x.workItems.length = 2 + if c.difficulty.rem = 0 then 0 else 1 := by
  have hmsb := x.msb_isSome
  unfold workItems
  cases hm : x.msb with
  | none =>
    rw [hm] at hmsb
    simp only [Option.isSome_none, Bool.false_eq_true, false_iff, ne_eq, Decidable.not_not] at hmsb
    simp [hmsb]
  | some y =>
    rw [hm] at hmsb
    simp only [Option.isSome_some, true_iff] at hmsb
    simp [hmsb]

theorem length_items (x : Hints c) : x.items.length = count c := by
  have hblocks : ∀ b ∈ x.blocks.reverse, b.Shaped c :=
    fun b hb => x.blocks_shaped b (List.mem_reverse.mp hb)
  have hlen := Block.length_items hblocks
  rw [List.length_reverse, x.blocks_length] at hlen
  unfold items count
  simp only [List.length_append, List.length_cons, List.length_nil, Hint.items, x.alpha_units,
    x.claimed_length, x.length_workItems, x.queries_units, hlen]
  omega

def afterRoot (H : Bytes → Bytes) (x : Hints c) : Bytes := H (c.seed ++ x.root)

def afterClaimed (H : Bytes → Bytes) (x : Hints c) : Bytes :=
  H (H (x.afterRoot H) ++ nest H x.claimed)

def afterWork (H : Bytes → Bytes) (x : Hints c) : Bytes := H (x.afterClaimed H)

def final (H : Bytes → Bytes) (x : Hints c) : Bytes := H (x.afterWork H)

/-- What the script asks of its items. -/
structure Accepted (H : Bytes → Bytes) (x : Hints c) : Prop where
  root : x.root.length ≤ 488
  alpha : ∃ values,
    Extraction.unpack (H (x.afterRoot H ++ Channel.drawMark)) x.alpha .four = .ok values
  claimed : Short x.claimed.dropLast
  nonce : x.nonce.length ≤ 488
  work : ∃ msb, Work.readMsb x.msb = some msb ∧
    Work.verify ⟨.sha256, H⟩ (x.afterClaimed H) x.nonce c.difficulty ⟨x.suffix, msb⟩ =
      .ok (x.afterWork H)
  queries : ∃ queries,
    Extraction.unpackQueries (H (x.afterWork H ++ Channel.drawMark)) x.queries c.width c.order =
      .ok queries ∧
    ∀ p ∈ queries.zip x.blocks, p.2.LeadsTo H x.root p.1

/-- A path ends in a digest, so only a digest is accepted as the root. -/
theorem Accepted.length_root {H : Bytes → Bytes} (hH : ∀ data, (H data).length = digestSize)
    {x : Hints c} (h : x.Accepted H) : x.root.length = digestSize := by
  obtain ⟨queries, hq, hpaths⟩ := h.queries
  obtain ⟨hlen, -⟩ := Extraction.unpackQueries_bounds x.queries_units (hH _) hq
  have hblocks := x.blocks_length
  cases queries with
  | nil => cases hlen
  | cons q queries =>
    cases hb : x.blocks with
    | nil =>
      rw [hb] at hblocks
      cases hblocks
    | cons b blocks =>
      rw [hb] at hpaths
      have hpos := c.width.pos
      have hsiblings := (x.blocks_shaped b (by rw [hb]; exact List.mem_cons_self)).siblings
      rw [← (hpaths (q, b) List.mem_cons_self).path]
      exact Merkle.length_climb (h := ⟨.sha256, H⟩) hH
        (List.ne_nil_of_length_pos (by rw [hsiblings]; exact hpos))

end Hints

def rootScript (h : Hasher) (c : Config) : Script :=
  bytes c.seed ++ fetch ++ ops [.dup, .toAlt] ++ Channel.absorbScript h

def alphaScript (h : Hasher) : Script := Channel.squeezeElementScript h ++ ops [.drop2, .drop2]

def claimedScript (h : Hasher) : Script := times 4 fetch ++ Channel.absorbElementScript h

theorem script_eq (h : Hasher) (c : Config) : script h c =
    rootScript h c ++ (alphaScript h ++ (claimedScript h ++ (Work.script h c.difficulty ++
      (Channel.squeezeQueriesScript h c.width c.order ++
        (times queryCount (openScript h c) ++ ops [.fromAlt, .drop]))))) := by
  simp only [script, rootScript, alphaScript, claimedScript, List.append_assoc]

section

variable {H : Bytes → Bytes} {m l : List Bytes} {c : Config} {f : Frame}

theorem exec_rootScript (root : Bytes) (hm : m.length < 2 ^ 30) :
    exec (shaEnv H) (rootScript ⟨.sha256, H⟩ c) ⟨⟨m ++ [root], l⟩, []⟩ = some f ↔
      root.length ≤ 488 ∧ f = ⟨⟨H (c.seed ++ root) :: m, root :: l⟩, []⟩ := by
  have hseed := c.wide
  unfold digestSize at hseed
  unfold rootScript
  rw [exec_append, exec_append, exec_append, exec_bytes (by omega), Option.bind_some,
    ← List.cons_append, exec_fetch (by rw [List.length_cons]; omega), Option.bind_some, exec_dup,
    exec_toAlt, exec_ops_nil, Option.bind_some, Channel.exec_absorbScript, ite_some_eq_iff, hseed]
  have hroom : 32 + root.length ≤ 520 ↔ root.length ≤ 488 := by omega
  rw [hroom]

theorem exec_dropFour {xs : List Bytes} (hx : xs.length = 4) :
    exec (shaEnv H) (ops [.drop2, .drop2]) ⟨⟨xs.reverse ++ m, l⟩, []⟩ = some ⟨⟨m, l⟩, []⟩ := by
  match xs, hx with
  | [a, b, c, d], _ => rfl

theorem exec_alphaScript (hH : ∀ data, (H data).length = digestSize) {s : Bytes}
    (hs : s.length = digestSize) {hint : Hint} (hu : hint.units.length = 4)
    (hm : m.length < 2 ^ 30 - 1) :
    exec (shaEnv H) (alphaScript ⟨.sha256, H⟩) ⟨⟨s :: (m ++ hint.items.reverse), l⟩, []⟩ = some f ↔
      (∃ values, Extraction.unpack (H (s ++ Channel.drawMark)) hint .four = .ok values) ∧
        f = ⟨⟨H s :: m, l⟩, []⟩ := by
  unfold alphaScript
  rw [exec_append, Channel.exec_squeezeElementScript hH hs hu hm]
  cases hq : Extraction.unpack (H (s ++ Channel.drawMark)) hint .four with
  | error e => simp [Except.toOption]
  | ok values =>
    obtain ⟨hlen, -⟩ := Extraction.unpack_bounds hu (hH _) (toOption_eq_some_iff.mpr hq)
    simp only [Except.toOption, Option.map_some, Option.bind_some]
    rw [exec_dropFour (by rw [List.length_map, hlen]; rfl), Option.some_inj]
    exact ⟨fun h => ⟨⟨_, rfl⟩, h.symm⟩, fun h => h.2.symm⟩

theorem exec_claimedScript (hH : ∀ data, (H data).length = digestSize) {s : Bytes}
    (hs : s.length = digestSize) {xs : List Bytes} (hx : xs.length = 4) (hm : m.length < 2 ^ 30) :
    exec (shaEnv H) (claimedScript ⟨.sha256, H⟩) ⟨⟨s :: (m ++ xs.reverse), l⟩, []⟩ = some f ↔
      Short xs.dropLast ∧ f = ⟨⟨H (s ++ nest H xs) :: m, l⟩, []⟩ := by
  have hfetch := exec_times_fetch (H := H) (m := s :: m) (l := l) xs (by simp; omega)
  rw [hx] at hfetch
  unfold claimedScript
  rw [exec_append, ← List.cons_append, hfetch, Option.bind_some,
    Channel.exec_absorbElementScript hH hs hx, ite_some_eq_iff]

theorem exec_workScript (hH : ∀ data, (H data).length = digestSize) {s : Bytes}
    (nonce suffix : Bytes) {d : Difficulty} {msb : Option Bytes} (hs : s.length = digestSize)
    (hmsb : msb.isSome = true ↔ d.rem ≠ 0) (hm : m.length < 2 ^ 29) :
    exec (shaEnv H) (Work.script ⟨.sha256, H⟩ d)
        ⟨⟨s :: (m ++ (nonce :: suffix :: msb.toList).reverse), l⟩, []⟩ = some f ↔
      (nonce.length ≤ 488 ∧ ∃ v, Work.readMsb msb = some v ∧
        Work.verify ⟨.sha256, H⟩ s nonce d ⟨suffix, v⟩ = .ok (H s)) ∧
        f = ⟨⟨H s :: m, l⟩, []⟩ := by
  rw [Work.exec_script hH d hs hmsb hm]
  by_cases hn : nonce.length ≤ 488
  · rw [if_pos hn, Option.bind_eq_some_iff]
    constructor
    · rintro ⟨v, hv, hf⟩
      obtain ⟨s', hs', rfl⟩ := Option.map_eq_some_iff.mp hf
      rw [toOption_eq_some_iff] at hs'
      obtain rfl := Work.eq_digest_of_verify hs'
      exact ⟨⟨hn, v, hv, hs'⟩, rfl⟩
    · rintro ⟨⟨-, v, hv, hs'⟩, rfl⟩
      exact ⟨v, hv, by rw [hs']; rfl⟩
  · rw [if_neg hn]
    exact ⟨nofun, fun h => absurd h.1.1 hn⟩

theorem exec_openScript (hH : ∀ data, (H data).length = digestSize) (root : Bytes) {q : Int}
    (h0 : 0 ≤ q) (hq : q < 2 ^ c.width.bits) {b : Block} (hb : b.Shaped c)
    (hm : m.length < 2 ^ 29) :
    exec (shaEnv H) (openScript ⟨.sha256, H⟩ c)
        ⟨⟨encode q :: (m ++ b.items.reverse), root :: l⟩, []⟩ = some f ↔
      b.LeadsTo H root q ∧ f = ⟨⟨m, root :: l⟩, []⟩ := by
  obtain ⟨n, rfl, hn⟩ := Merkle.exists_index h0 hq
  have hiff : b.LeadsTo H root n ↔ Short b.leaf.dropLast ∧ Short b.siblings ∧
      Merkle.climb ⟨.sha256, H⟩ (nest H b.leaf) n b.siblings = root :=
    ⟨fun h => ⟨h.leaf, h.siblings, h.path⟩, fun h => ⟨h.1, h.2.1, h.2.2⟩⟩
  unfold openScript
  rw [exec_append, exec_append, exec_fromAlt, exec_dup, exec_toAlt, exec_swap, exec_ops_nil,
    Option.bind_some, Block.items, Merkle.exec_openingScript hH hb.leaf hb.siblings hm,
    Merkle.readIndex_encode hn, Option.bind_some, hiff]
  by_cases hok : Short b.leaf.dropLast ∧ Short b.siblings ∧
      Merkle.climb ⟨.sha256, H⟩ (nest H b.leaf) n b.siblings = root
  · rw [if_pos hok, Option.bind_some, exec_dropFour hb.leaf, Option.some_inj]
    exact ⟨fun h => ⟨hok, h.symm⟩, fun h => h.2.symm⟩
  · rw [if_neg hok]
    exact ⟨nofun, fun h => absurd h.1 hok⟩

theorem exec_openings (hH : ∀ data, (H data).length = digestSize) (root : Bytes)
    (ps : List (Int × Block))
    (hq : ∀ p ∈ ps, (0 ≤ p.1 ∧ p.1 < 2 ^ c.width.bits) ∧ p.2.Shaped c)
    (hm : m.length + (ps.flatMap fun p => p.2.items).length + ps.length < 2 ^ 29) :
    exec (shaEnv H) (times ps.length (openScript ⟨.sha256, H⟩ c))
        ⟨⟨ps.map (fun p => encode p.1) ++ (m ++ (ps.flatMap fun p => p.2.items).reverse),
          root :: l⟩, []⟩ = some f ↔
      (∀ p ∈ ps, p.2.LeadsTo H root p.1) ∧ f = ⟨⟨m, root :: l⟩, []⟩ := by
  induction ps with
  | nil =>
    simp only [List.length_nil, times_zero, exec_nil, Option.some_inj]
    simp [eq_comm]
  | cons p ps ih =>
    obtain ⟨⟨hrange, hshape⟩, hrest⟩ := List.forall_mem_cons.mp hq
    simp only [List.flatMap_cons, List.length_append, List.length_cons] at hm
    have hstep (g : Frame) := exec_openScript (l := l) (f := g)
      (m := ps.map (fun p => encode p.1) ++ (m ++ (ps.flatMap fun p => p.2.items).reverse))
      hH root hrange.1 hrange.2 hshape
      (by simp only [List.length_append, List.length_map, List.length_reverse]; omega)
    rw [List.length_cons, times_succ, exec_append, List.map_cons, List.flatMap_cons,
      List.reverse_append, List.cons_append, ← List.append_assoc m, ← List.append_assoc,
      Option.bind_eq_some_iff]
    constructor
    · rintro ⟨g, hg, hf⟩
      obtain ⟨hp, rfl⟩ := (hstep g).mp hg
      obtain ⟨hps, rfl⟩ := (ih hrest (by omega)).mp hf
      exact ⟨List.forall_mem_cons.mpr ⟨hp, hps⟩, rfl⟩
    · rintro ⟨hall, rfl⟩
      obtain ⟨hp, hps⟩ := List.forall_mem_cons.mp hall
      exact ⟨_, (hstep _).mpr ⟨hp, rfl⟩, (ih hrest (by omega)).mpr ⟨hps, rfl⟩⟩

theorem exec_openAll (hH : ∀ data, (H data).length = digestSize) {root s : Bytes}
    {queries : List Int} {blocks : List Block} (hlen : queries.length = queryCount)
    (hblocks : blocks.length = queryCount)
    (hq : ∀ q ∈ queries, 0 ≤ q ∧ q < 2 ^ c.width.bits) (hb : ∀ b ∈ blocks, b.Shaped c) :
    exec (shaEnv H) (times queryCount (openScript ⟨.sha256, H⟩ c) ++ ops [.fromAlt, .drop])
        ⟨⟨(queries.map encode).reverse ++ s :: (blocks.reverse.flatMap Block.items).reverse,
          [root]⟩, []⟩ = some f ↔
      (∀ p ∈ queries.zip blocks, p.2.LeadsTo H root p.1) ∧ f = ⟨⟨[s], []⟩, []⟩ := by
  have hzip : (queries.zip blocks).length = queryCount := by
    rw [List.length_zip, hlen, hblocks, Nat.min_self]
  have hfst : (queries.zip blocks).reverse.map (fun p => encode p.1) =
      (queries.map encode).reverse := by
    change (queries.zip blocks).reverse.map (encode ∘ Prod.fst) = _
    rw [List.map_reverse, ← List.map_map, List.map_fst_zip (by omega)]
  have hsnd : (queries.zip blocks).reverse.flatMap (fun p => p.2.items) =
      blocks.reverse.flatMap Block.items := by
    rw [List.flatMap_def, List.flatMap_def]
    change ((queries.zip blocks).reverse.map (Block.items ∘ Prod.snd)).flatten = _
    rw [List.map_reverse, ← List.map_map, List.map_snd_zip (by omega), ← List.map_reverse]
  have hshape : ∀ p ∈ (queries.zip blocks).reverse,
      (0 ≤ p.1 ∧ p.1 < 2 ^ c.width.bits) ∧ p.2.Shaped c := by
    intro p hp
    obtain ⟨h₁, h₂⟩ := List.of_mem_zip (List.mem_reverse.mp hp)
    exact ⟨hq _ h₁, hb _ h₂⟩
  have hroom : [s].length + ((queries.zip blocks).reverse.flatMap fun p => p.2.items).length +
      (queries.zip blocks).reverse.length < 2 ^ 29 := by
    have hle := c.width.le
    rw [hsnd, Block.length_items fun b hmem => hb b (List.mem_reverse.mp hmem), List.length_reverse,
      List.length_reverse, hzip, hblocks, List.length_singleton]
    unfold queryCount
    omega
  have hopen (g : Frame) := exec_openings (l := []) (m := [s]) (f := g) hH root
    (queries.zip blocks).reverse hshape hroom
  simp only [List.length_reverse, hzip, hfst, hsnd, List.singleton_append] at hopen
  rw [exec_append, bind_eq_some_iff_of hopen, exec_fromAlt, exec_drop, exec_ops_nil,
    Option.some_inj]
  simp only [List.mem_reverse, eq_comm]

theorem exec_queriesScript (hH : ∀ data, (H data).length = digestSize) (root : Bytes) {s : Bytes}
    (hs : s.length = digestSize) {hint : Hint} (hu : hint.units.length = 5) {blocks : List Block}
    (hblocks : blocks.length = queryCount) (hb : ∀ b ∈ blocks, b.Shaped c) :
    exec (shaEnv H) (Channel.squeezeQueriesScript ⟨.sha256, H⟩ c.width c.order ++
        (times queryCount (openScript ⟨.sha256, H⟩ c) ++ ops [.fromAlt, .drop]))
        ⟨⟨s :: ((blocks.reverse.flatMap Block.items).reverse ++ hint.items.reverse), [root]⟩, []⟩ =
        some f ↔
      (∃ queries, Extraction.unpackQueries (H (s ++ Channel.drawMark)) hint c.width c.order =
          .ok queries ∧ ∀ p ∈ queries.zip blocks, p.2.LeadsTo H root p.1) ∧
        f = ⟨⟨[H s], []⟩, []⟩ := by
  have hlen := Block.length_items fun b hmem => hb b (List.mem_reverse.mp hmem)
  have hle := c.width.le
  rw [List.length_reverse, hblocks, queryCount] at hlen
  rw [exec_append, Channel.exec_squeezeQueriesScript hH hs _ _ hu
    (by rw [List.length_reverse]; omega)]
  cases hq : Extraction.unpackQueries (H (s ++ Channel.drawMark)) hint c.width c.order with
  | error e => exact ⟨nofun, nofun⟩
  | ok queries =>
    obtain ⟨hqlen, hqall⟩ := Extraction.unpackQueries_bounds hu (hH _) hq
    rw [Except.toOption, Option.map_some, Option.bind_some,
      exec_openAll hH hqlen hblocks hqall hb]
    constructor
    · rintro ⟨hall, rfl⟩
      exact ⟨⟨queries, rfl, hall⟩, rfl⟩
    · rintro ⟨⟨queries', hq', hall⟩, rfl⟩
      cases hq'
      exact ⟨hall, rfl⟩

/-- The script succeeds on the items that it accepts, and leaves the final channel state. -/
theorem exec_script_iff (hH : ∀ data, (H data).length = digestSize) (x : Hints c) :
    exec (shaEnv H) (script ⟨.sha256, H⟩ c) ⟨⟨x.items.reverse, []⟩, []⟩ = some f ↔
      x.Accepted H ∧ f = ⟨⟨[x.final H], []⟩, []⟩ := by
  have hcount := x.length_items
  have hle := Hints.count_le c
  let blocks := (x.blocks.reverse.flatMap Block.items).reverse
  have hitems : x.items.reverse = blocks ++ x.queries.items.reverse ++ x.workItems.reverse ++
      x.claimed.reverse ++ x.alpha.items.reverse ++ [x.root] := by
    simp [Hints.items, blocks]
  have hlen := congrArg List.length hitems
  rw [List.length_reverse, hcount] at hlen
  simp only [List.length_append] at hlen
  have hroot (g : Frame) : _ ↔ _ ∧ g = ⟨⟨x.afterRoot H :: _, _⟩, _⟩ :=
    exec_rootScript (l := []) x.root (m := blocks ++ x.queries.items.reverse ++
      x.workItems.reverse ++ x.claimed.reverse ++ x.alpha.items.reverse)
      (by simp only [List.length_append]; omega)
  have halpha (g : Frame) := exec_alphaScript (l := [x.root]) (f := g)
    (m := blocks ++ x.queries.items.reverse ++ x.workItems.reverse ++ x.claimed.reverse) hH
    (show (x.afterRoot H).length = _ from hH _) x.alpha_units
    (by simp only [List.length_append]; omega)
  have hclaimed (g : Frame) : _ ↔ _ ∧ g = ⟨⟨x.afterClaimed H :: _, _⟩, _⟩ :=
    exec_claimedScript (l := [x.root]) (m := blocks ++ x.queries.items.reverse ++
      x.workItems.reverse) hH (hH (x.afterRoot H)) x.claimed_length
      (by simp only [List.length_append]; omega)
  have hwork (g : Frame) : exec _ _ ⟨⟨_ :: (_ ++ x.workItems.reverse), _⟩, _⟩ = some g ↔
      _ ∧ g = ⟨⟨x.afterWork H :: _, _⟩, _⟩ :=
    exec_workScript (l := [x.root]) (m := blocks ++ x.queries.items.reverse) hH x.nonce x.suffix
      (show (x.afterClaimed H).length = _ from hH _) x.msb_isSome
      (by simp only [List.length_append]; omega)
  have hqueries := exec_queriesScript (f := f) hH x.root
    (show (x.afterWork H).length = _ from hH _) x.queries_units x.blocks_length x.blocks_shaped
  rw [hitems, script_eq, exec_append, bind_eq_some_iff_of hroot, exec_append,
    bind_eq_some_iff_of halpha, exec_append, bind_eq_some_iff_of hclaimed, exec_append,
    bind_eq_some_iff_of hwork, hqueries]
  constructor
  · rintro ⟨hr, ha, hc, ⟨hn, hw⟩, hq, rfl⟩
    exact ⟨⟨hr, ha, hc, hn, hw, hq⟩, rfl⟩
  · rintro ⟨⟨hr, ha, hc, hn, hw, hq⟩, rfl⟩
    exact ⟨hr, ha, hc, ⟨hn, hw⟩, hq, rfl⟩

theorem openScript_shifts (H : Bytes → Bytes) (c : Config) :
    Shifts (openScript ⟨.sha256, H⟩ c) (-5 - c.width.bits) 0 (c.width.bits + 10) :=
  (((Shifts.line (s := ops [.fromAlt, .dup, .toAlt, .swap]) rfl).append
    (Merkle.openingScript_shifts H c.width)).append
    (.line (s := ops [.drop2, .drop2]) rfl)).of_eq (by omega) (by omega) (by omega)

theorem script_shifts (H : Bytes → Bytes) (c : Config) :
    Shifts (script ⟨.sha256, H⟩ c) (1 - Hints.count c) 0 45 := by
  have hle := c.width.le
  have hroot : Shifts (rootScript ⟨.sha256, H⟩ c) 0 1 2 :=
    (((Shifts.line (s := bytes c.seed) rfl).append fetch_shifts).append
      (.line (s := ops [.dup, .toAlt]) rfl) |>.append
      (Channel.absorbScript_shifts H)).of_eq rfl rfl (by decide)
  have halpha : Shifts (alphaScript ⟨.sha256, H⟩) (-5) 0 10 :=
    ((Channel.squeezeElementScript_shifts H).append
      (.line (s := ops [.drop2, .drop2]) rfl)).of_eq rfl rfl (by decide)
  have hclaimed : Shifts (claimedScript ⟨.sha256, H⟩) (-4) 0 1 :=
    ((times_fetch_shifts 4).append (Channel.absorbElementScript_shifts H)).of_eq rfl rfl (by decide)
  have hopen := (openScript_shifts H c).times queryCount (k := 0) (by omega) (by decide)
  rw [script_eq]
  refine (hroot.append (halpha.append (hclaimed.append ((Work.script_shifts H c.difficulty).append
    ((Channel.squeezeQueriesScript_shifts H c.width c.order).append
      (hopen.append (.line (s := ops [.fromAlt, .drop]) rfl))))))).of_eq ?_ ?_ ?_
  · unfold Hints.count queryCount
    split <;> omega
  · unfold queryCount
    omega
  · unfold queryCount
    split <;> omega

/-! ### Runs on arbitrary pushes -/

theorem exists_append {l : List Bytes} {j k : Nat} (h : l.length = j + k) :
    ∃ xs ys, l = xs ++ ys ∧ xs.length = j ∧ ys.length = k :=
  ⟨l.take j, l.drop j, (List.take_append_drop j l).symm, by rw [List.length_take]; omega,
    by rw [List.length_drop]; omega⟩

theorem exists_hint {l : List Bytes} {n : Nat} (h : l.length = n + 1) :
    ∃ hint : Hint, hint.units.length = n ∧ hint.items = l := by
  obtain ⟨units, ys, rfl, hu, hy⟩ := exists_append h
  obtain ⟨tail, rfl⟩ := List.length_eq_one_iff.mp hy
  exact ⟨⟨units, tail⟩, hu, rfl⟩

theorem exists_workItems {l : List Bytes} {d : Difficulty}
    (h : l.length = 2 + if d.rem = 0 then 0 else 1) :
    ∃ nonce suffix, ∃ msb : Option Bytes, (msb.isSome = true ↔ d.rem ≠ 0) ∧
      nonce :: suffix :: msb.toList = l := by
  by_cases hr : d.rem = 0
  · rw [if_pos hr] at h
    match l, h with
    | [nonce, suffix], _ => exact ⟨nonce, suffix, none, by simp [hr], rfl⟩
  · rw [if_neg hr] at h
    match l, h with
    | [nonce, suffix, msb], _ => exact ⟨nonce, suffix, some msb, by simp [hr], rfl⟩

theorem exists_blocks (c : Config) (n : Nat) {l : List Bytes}
    (h : l.length = n * (4 + c.width.bits)) :
    ∃ bs : List Block, bs.length = n ∧ (∀ b ∈ bs, b.Shaped c) ∧ bs.flatMap Block.items = l := by
  induction n generalizing l with
  | zero =>
    rw [Nat.zero_mul, List.length_eq_zero_iff] at h
    exact ⟨[], rfl, by simp, h.symm⟩
  | succ n ih =>
    rw [Nat.succ_mul, Nat.add_comm] at h
    obtain ⟨xs, ys, rfl, hx, hy⟩ := exists_append h
    obtain ⟨leaf, siblings, rfl, hl, hs⟩ := exists_append hx
    obtain ⟨bs, hlen, hall, rfl⟩ := ih hy
    exact ⟨⟨leaf, siblings⟩ :: bs, by rw [List.length_cons, hlen],
      List.forall_mem_cons.mpr ⟨⟨hl, hs⟩, hall⟩, rfl⟩

/-- As many items as the script takes have one reading. -/
theorem Hints.exists_items {l : List Bytes} (h : l.length = count c) :
    ∃ x : Hints c, x.items = l := by
  have hsplit : l.length = 1 + (5 + (4 + ((2 + if c.difficulty.rem = 0 then 0 else 1) +
      (6 + queryCount * (4 + c.width.bits))))) := by
    unfold count at h
    omega
  obtain ⟨roots, l₁, rfl, hroots, h₁⟩ := exists_append hsplit
  obtain ⟨alphas, l₂, rfl, halphas, h₂⟩ := exists_append h₁
  obtain ⟨claimed, l₃, rfl, hclaimed, h₃⟩ := exists_append h₂
  obtain ⟨works, l₄, rfl, hworks, h₄⟩ := exists_append h₃
  obtain ⟨queries, l₅, rfl, hqueries, h₅⟩ := exists_append h₄
  obtain ⟨root, rfl⟩ := List.length_eq_one_iff.mp hroots
  obtain ⟨alpha, halpha, rfl⟩ := exists_hint halphas
  obtain ⟨nonce, suffix, msb, hmsb, rfl⟩ := exists_workItems hworks
  obtain ⟨hint, hhint, rfl⟩ := exists_hint hqueries
  obtain ⟨bs, hlen, hall, rfl⟩ := exists_blocks c queryCount h₅
  refine ⟨⟨root, alpha, claimed, nonce, suffix, msb, hint, bs.reverse, halpha, hclaimed, hmsb,
    hhint, by rw [List.length_reverse, hlen], fun b hb => hall b (List.mem_reverse.mp hb)⟩, ?_⟩
  simp [items, workItems]

theorem exec_of_run_pushes {hs : List Bytes} {s : Script} {m : Machine}
    (h : Machine.run (shaEnv H) (pushes hs ++ s) {} = .ok () m) :
    (∀ y ∈ hs, y.length ≤ 520) ∧ exec (shaEnv H) s ⟨⟨hs.reverse, []⟩, []⟩ = some m.frame := by
  have hexec := Machine.exec_of_run h
  change exec (shaEnv H) _ ⟨⟨[], []⟩, []⟩ = _ at hexec
  rw [exec_append, exec_pushes, List.append_nil] at hexec
  split at hexec
  · rename_i hitems
    exact ⟨hitems, hexec⟩
  · cases hexec

/-- A run that succeeds has been given items that the script accepts. -/
theorem accepted_of_success (hH : ∀ data, (H data).length = digestSize) {hs : List Bytes}
    (h : (execute (shaEnv H) (pushes hs ++ script ⟨.sha256, H⟩ c)).success = true) :
    ∃ x : Hints c, hs = x.items ∧ x.Accepted H ∧
      (execute (shaEnv H) (pushes hs ++ script ⟨.sha256, H⟩ c)).mainStack = [x.final H] := by
  obtain ⟨m, hrun, hend⟩ := execute_success_iff.mp h
  obtain ⟨-, y, hmain, -⟩ := Machine.endFault_eq_none_iff.mp hend
  obtain ⟨-, hexec⟩ := exec_of_run_pushes hrun
  obtain ⟨hsize, -, -⟩ := (script_shifts H c).sizes rfl hexec
  rw [hmain, List.length_reverse, List.length_singleton] at hsize
  obtain ⟨x, rfl⟩ := Hints.exists_items (c := c) (l := hs) (by omega)
  obtain ⟨haccepted, hframe⟩ := (exec_script_iff hH x).mp hexec
  refine ⟨x, rfl, haccepted, ?_⟩
  rw [execute_of_run hrun]
  exact congrArg (fun f => f.stack.main) hframe

theorem run_of_accepted (hH : ∀ data, (H data).length = digestSize) {x : Hints c}
    (hitems : ∀ y ∈ x.items, y.length ≤ 520) (h : x.Accepted H) :
    Machine.Leaves (shaEnv H) (pushes x.items ++ script ⟨.sha256, H⟩ c) {}
      ⟨[x.final H], []⟩ := by
  have hcount := x.length_items
  have hle := Hints.count_le c
  refine ((pushes_shifts x.items).append (script_shifts H c)).leaves rfl ?_ ?_
  · rw [hcount]
    change ((0 : Nat) : Int) + _ ≤ 1000
    omega
  · change exec (shaEnv H) _ ⟨⟨[], []⟩, []⟩ = _
    rw [exec_append, exec_pushes, if_pos hitems, Option.bind_some, List.append_nil]
    exact (exec_script_iff hH x).mpr ⟨h, rfl⟩

theorem success_iff (hH : ∀ data, (H data).length = digestSize) (x : Hints c) :
    (execute (shaEnv H) (pushes x.items ++ script ⟨.sha256, H⟩ c)).success = true ↔
      (∀ y ∈ x.items, y.length ≤ 520) ∧ x.Accepted H ∧ isTrue (x.final H) = true := by
  rw [execute_success_iff]
  constructor
  · rintro ⟨m, hrun, hend⟩
    obtain ⟨-, y, hmain, htrue⟩ := Machine.endFault_eq_none_iff.mp hend
    obtain ⟨hitems, hexec⟩ := exec_of_run_pushes hrun
    obtain ⟨haccepted, hframe⟩ := (exec_script_iff hH x).mp hexec
    have hfinal : m.stack.main = [x.final H] := congrArg (fun f => f.stack.main) hframe
    rw [hmain] at hfinal
    cases hfinal
    exact ⟨hitems, haccepted, htrue⟩
  · rintro ⟨hitems, haccepted, htrue⟩
    obtain ⟨m, hrun, hstack, hbranches⟩ := run_of_accepted hH hitems haccepted
    exact ⟨m, hrun, Machine.endFault_eq_none_iff.mpr ⟨hbranches, _, by rw [hstack], htrue⟩⟩

/-- Whatever is pushed, a run of the script that succeeds has been given a proof: the pushes are
the items of one in their places with none left over, and every check of the verifier passes on
them. -/
theorem hints_of_success {h : Hasher} (ho : h.opcode = .sha256) (hw : h.Wide) (c : Config)
    {hs : List Bytes} (hok : (execute ⟨h, {}⟩ (pushes hs ++ script h c)).success = true) :
    ∃ x : Hints c, hs = x.items ∧ x.root.length = digestSize ∧
      (∃ alpha, Extraction.unpack (h.digest (x.afterRoot h.digest ++ Channel.drawMark)) x.alpha
        .four = .ok alpha) ∧
      c.difficulty.bits ≤ Work.leadingZeroBits (h.digest (x.afterClaimed h.digest ++ x.nonce)) ∧
      (∃ msb middle, x.msb = msb.map encode ∧
        Work.Witness.middle ⟨x.suffix, msb⟩ c.difficulty = .ok middle ∧
        h.digest (x.afterClaimed h.digest ++ x.nonce) =
          List.replicate c.difficulty.whole 0 ++ middle ++ x.suffix) ∧
      (∃ queries, Extraction.unpackQueries (h.digest (x.afterWork h.digest ++ Channel.drawMark))
          x.queries c.width c.order = .ok queries ∧ queries.length = queryCount ∧
        ∀ (i : Nat) (q : Int) (b : Block), queries[i]? = some q → x.blocks[i]? = some b →
          Merkle.checkPath h x.root (nest h.digest b.leaf) q b.siblings = .ok ()) ∧
      (execute ⟨h, {}⟩ (pushes hs ++ script h c)).mainStack = [x.final h.digest] := by
  obtain ⟨o, H⟩ := h
  obtain rfl : o = .sha256 := ho
  obtain ⟨x, hitems, haccepted, hmain⟩ := accepted_of_success hw hok
  have hroot := haccepted.length_root hw
  obtain ⟨-, halpha, -, -, ⟨msb, hmsb, hwork⟩, queries, hq, hpaths⟩ := haccepted
  obtain ⟨middle, hmiddle, hdigest⟩ := Work.exists_middle_of_verify hw hwork
  obtain ⟨hlen, hrange⟩ := Extraction.unpackQueries_bounds x.queries_units (hw _) hq
  refine ⟨x, hitems, hroot, halpha, Work.le_leadingZeroBits_of_middle hmiddle hdigest,
    ⟨msb, middle, Work.eq_map_of_readMsb hmsb, hmiddle, hdigest.symm⟩,
    ⟨queries, hq, hlen, ?_⟩, hmain⟩
  intro i q b hi hb
  obtain ⟨h0, hlt⟩ := hrange q (List.mem_of_getElem? hi)
  have hpath := hpaths (q, b) (List.mem_of_getElem? (List.getElem?_zip_eq_some.mpr ⟨hi, hb⟩))
  have hshape := x.blocks_shaped b (List.mem_of_getElem? hb)
  obtain ⟨n, rfl⟩ := Int.eq_ofNat_of_zero_le h0
  have hcast : (2 : Int) ^ c.width.bits = (2 ^ c.width.bits : Nat) :=
    (Int.natCast_pow 2 c.width.bits).symm
  exact (Merkle.checkPath_eq_ok_iff (by omega) hshape.siblings).mpr hpath.path

end

/-! ### A hash of ones -/

def ones : Bytes := List.replicate 32 1

def onesHasher : Hasher := ⟨.sha256, fun _ => ones⟩

/-- Three bits of work and trees of two leaves. -/
def onesConfig : Config := ⟨ones, ⟨3, by decide⟩, ⟨1, Nat.one_pos, by decide⟩, .low, rfl⟩

def onesHint (n : Nat) : Hint := ⟨List.replicate n [1, 1, 1, 1], List.replicate (32 - 4 * n) 1⟩

def onesHints (claimed leaf : List Bytes) (hc : claimed.length = 4) (hl : leaf.length = 4) :
    Hints onesConfig where
  root := ones
  alpha := onesHint 4
  claimed := claimed
  nonce := [7]
  suffix := List.replicate 31 1
  msb := some [1]
  queries := onesHint 5
  blocks := List.replicate 5 ⟨leaf, [[9]]⟩
  alpha_units := rfl
  claimed_length := hc
  msb_isSome := by decide
  queries_units := rfl
  blocks_length := rfl
  blocks_shaped := by
    intro b hb
    rw [List.eq_of_mem_replicate hb]
    exact ⟨hl, rfl⟩

theorem success_onesHints (claimed leaf : List Bytes) (hc : claimed.length = 4)
    (hl : leaf.length = 4) (hshort : Short (claimed ++ leaf)) :
    (execute ⟨onesHasher, {}⟩ (pushes (onesHints claimed leaf hc hl).items ++
      script onesHasher onesConfig)).success = true := by
  obtain ⟨hclaimed, hleaf⟩ := List.forall_mem_append.mp hshort
  have hitems : ∀ y ∈ (onesHints claimed leaf hc hl).items, y.length ≤ 520 := by
    have hroot : ∀ y ∈ [ones], y.length ≤ 520 := by decide
    have halpha : ∀ y ∈ (onesHint 4).items, y.length ≤ 520 := by decide
    have hwork : ∀ y ∈ ([[7], List.replicate 31 1, [1]] : List Bytes), y.length ≤ 520 := by decide
    have hqueries : ∀ y ∈ (onesHint 5).items, y.length ≤ 520 := by decide
    unfold Hints.items
    simp only [List.forall_mem_append]
    refine ⟨⟨⟨⟨⟨hroot, halpha⟩, ?_⟩, hwork⟩, hqueries⟩, ?_⟩
    · intro y hy
      exact Nat.le_trans (hclaimed y hy) (by decide)
    · intro y hy
      obtain ⟨b, hb, hy⟩ := List.mem_flatMap.mp hy
      rw [List.eq_of_mem_replicate (List.mem_reverse.mp hb)] at hy
      rcases List.mem_append.mp hy with hy | hy
      · exact Nat.le_trans (hleaf y hy) (by decide)
      · rw [List.mem_singleton.mp hy]
        decide
  have halpha : Extraction.unpack ones (onesHint 4) .four = .ok (List.replicate 4 16843008) := by
    cbv
  have hwork : Work.verify onesHasher ones [7] ⟨3, by decide⟩ ⟨List.replicate 31 1, some 1⟩ =
      .ok ones := by decide
  have hqueries : Extraction.unpackQueries ones (onesHint 5) onesConfig.width onesConfig.order =
      .ok (List.replicate 5 0) := by cbv
  have htrue : isTrue ones = true := by decide
  refine (success_iff (fun _ => rfl) _).mpr ⟨hitems, ?_, htrue⟩
  refine ⟨show ones.length ≤ 488 by decide, ⟨_, halpha⟩,
    fun y hy => hclaimed y ((List.dropLast_sublist _).subset hy),
    show [7].length ≤ 488 by decide, ⟨some 1, rfl, hwork⟩, _, hqueries, ?_⟩
  intro q hq
  have hzip : (List.replicate 5 (0 : Int)).zip (onesHints claimed leaf hc hl).blocks =
      List.replicate 5 (0, ⟨leaf, [[9]]⟩) := rfl
  rw [hzip] at hq
  rw [List.eq_of_mem_replicate hq]
  exact ⟨fun y hy => hleaf y ((List.dropLast_sublist _).subset hy),
    show Short [[9]] by decide, rfl⟩

theorem hints_of_success_ones :
    let hs := (onesHints [[], [2], [3], [4]] [[5], [], [], [6]] rfl rfl).items
    (execute ⟨onesHasher, {}⟩ (pushes hs ++ script onesHasher onesConfig)).success = true ∧
      ∃ x : Hints onesConfig, hs = x.items ∧
        (execute ⟨onesHasher, {}⟩ (pushes hs ++ script onesHasher onesConfig)).mainStack =
          [x.final onesHasher.digest] := by
  intro hs
  have hok := success_onesHints [[], [2], [3], [4]] [[5], [], [], [6]] rfl rfl (by decide)
  obtain ⟨x, hx, -, -, -, -, -, hmain⟩ := hints_of_success rfl (fun _ => rfl) onesConfig hok
  exact ⟨hok, x, hx, hmain⟩

end HintScript.QueryPhase
