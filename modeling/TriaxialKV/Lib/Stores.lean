import Mathlib.Data.List.Nodup
import Mathlib.Data.List.Perm.Basic
import Mathlib.Data.List.ProdSigma
import Mathlib.Tactic.Common

/-! # Stores to a flat memory -/

namespace TriaxialKV.Stores
open List

variable {α : Type} {mem mem' : Nat → α} {ws : List (Nat × α)} {addr w u : Nat} {v : α}

def store (mem : Nat → α) (w : Nat × α) : Nat → α := fun addr => if addr = w.1 then w.2 else mem addr

def storeAll (mem : Nat → α) (ws : List (Nat × α)) : Nat → α := ws.foldl store mem

/-- The stores `ws` were carried out, in some order. -/
def Launch (mem : Nat → α) (ws : List (Nat × α)) (mem' : Nat → α) : Prop := ∃ order, order.Perm ws ∧ mem' = storeAll mem order

theorem storeAll_other (absent : addr ∉ ws.map Prod.fst) : storeAll mem ws addr = mem addr := by
  unfold storeAll
  induction ws generalizing mem with
  | nil => rfl
  | cons w ws ih =>
    obtain ⟨here, later⟩ := not_or.mp (mem_cons.not.mp absent)
    rw [foldl_cons, ih later, store, if_neg here]

theorem storeAll_here (nodup : (ws.map Prod.fst).Nodup) (member : (addr, v) ∈ ws) : storeAll mem ws addr = v := by
  unfold storeAll
  induction ws generalizing mem with
  | nil => cases member
  | cons w ws ih =>
    obtain ⟨fresh, nodup⟩ := nodup_cons.mp nodup
    rw [foldl_cons]
    rcases mem_cons.mp member with rfl | later
    · exact (storeAll_other fresh).trans (if_pos rfl)
    · exact ih nodup later

theorem storeAll_agree (member : addr ∈ ws.map Prod.fst) (agree : ∀ w ∈ ws, w.1 = addr → w.2 = v) : storeAll mem ws addr = v := by
  unfold storeAll
  induction ws generalizing mem with
  | nil => cases member
  | cons w ws ih =>
    rw [foldl_cons]
    by_cases later : addr ∈ ws.map Prod.fst
    · exact ih later (fun w' lt => agree w' (mem_cons_of_mem _ lt))
    · have here : addr = w.1 := by
        rcases mem_cons.mp member with here | there
        · exact here
        · exact absurd there later
      exact (storeAll_other later).trans ((if_pos here).trans (agree w mem_cons_self here.symm))

theorem storeAll_const (member : addr ∈ ws.map Prod.fst) (const : ∀ w ∈ ws, w.2 = v) : storeAll mem ws addr = v :=
  storeAll_agree member (fun w lt _ => const w lt)

def Unanimous (ws : List (Nat × α)) : Prop := ∀ addr v v', (addr, v) ∈ ws → (addr, v') ∈ ws → v = v'

theorem Launch.read (launch : Launch mem ws mem') (nodup : (ws.map Prod.fst).Nodup) (member : (addr, v) ∈ ws) : mem' addr = v := by
  obtain ⟨_, perm, rfl⟩ := launch
  exact storeAll_here ((perm.map Prod.fst).nodup_iff.mpr nodup) (perm.mem_iff.mpr member)

theorem Launch.read_agree (launch : Launch mem ws mem') (agree : Unanimous ws) (member : (addr, v) ∈ ws) : mem' addr = v := by
  obtain ⟨_, perm, rfl⟩ := launch
  apply storeAll_agree (mem_map.mpr ⟨_, perm.mem_iff.mpr member, rfl⟩)
  rintro ⟨_, _⟩ lt rfl
  exact agree _ _ _ (perm.mem_iff.mp lt) member

theorem Launch.frame (launch : Launch mem ws mem') (absent : addr ∉ ws.map Prod.fst) : mem' addr = mem addr := by
  obtain ⟨_, perm, rfl⟩ := launch
  exact storeAll_other (fun member => absent ((perm.map Prod.fst).mem_iff.mp member))

theorem launch_storeAll (mem : Nat → α) (ws : List (Nat × α)) : Launch mem ws (storeAll mem ws) := ⟨ws, .refl _, rfl⟩

theorem radix_div (low : u < w) (a : Nat) : (a * w + u) / w = a := by
  rw [Nat.mul_comm, Nat.mul_add_div (by omega), Nat.div_eq_of_lt low, Nat.add_zero]

theorem radix_mod (low : u < w) (a : Nat) : (a * w + u) % w = u := by
  rw [Nat.mul_comm, Nat.mul_add_mod, Nat.mod_eq_of_lt low]

theorem radix_inj {a b v : Nat} (left : u < w) (right : v < w) (same : a * w + u = b * w + v) : a = b ∧ u = v := by
  have high : a = b := by rw [← radix_div left a, same, radix_div right b]
  subst high
  exact ⟨rfl, by omega⟩

theorem radix_lt {n a : Nat} (high : a < n) (low : u < w) : a * w + u < n * w := by
  have := Nat.mul_le_mul_right w (Nat.succ_le_of_lt high)
  rw [Nat.succ_mul] at this
  omega

theorem radix_split {n c : Nat} : c < n * w ↔ ∃ a < n, ∃ u < w, c = a * w + u := by
  constructor
  · intro below
    have width : 0 < w := Nat.pos_of_mul_pos_left (Nat.lt_of_le_of_lt c.zero_le below)
    exact ⟨c / w, Nat.div_lt_of_lt_mul (by rwa [Nat.mul_comm]), c % w, Nat.mod_lt c width, (Nat.div_add_mod' c w).symm⟩
  · rintro ⟨a, high, u, low, rfl⟩
    exact radix_lt high low

/-! ### Stores by row, head and block

The kernels below write a row `r` of `H` heads, each of `G` blocks of `B` entries. -/

section

def blockAddr (H G B r h g b : Nat) : Nat := (r * H + h) * (G * B) + (g * B + b)

theorem blockAddr_inj {H G B r h g b r' h' g' b' : Nat} (head : h < H) (head' : h' < H) (block : g < G) (block' : g' < G)
    (entry : b < B) (entry' : b' < B) (same : blockAddr H G B r h g b = blockAddr H G B r' h' g' b') :
    r = r' ∧ h = h' ∧ g = g' ∧ b = b' := by
  obtain ⟨high, low⟩ := radix_inj (radix_lt block entry) (radix_lt block' entry') same
  obtain ⟨sameR, sameH⟩ := radix_inj head head' high
  obtain ⟨sameG, sameB⟩ := radix_inj entry entry' low
  exact ⟨sameR, sameH, sameG, sameB⟩

/-- The value `f i h g b` for every entry of the row `rows[i]`. -/
def blockStores (rows : List Nat) (H G B : Nat) (f : Nat → Nat → Nat → Nat → α) : List (Nat × α) :=
  (range rows.length ×ˢ range H ×ˢ range G ×ˢ range B).map
    (fun (i, h, g, b) => (blockAddr H G B rows[i]! h g b, f i h g b))

variable {rows : List Nat} {H G B : Nat} {f : Nat → Nat → Nat → Nat → α}

theorem nodup_blockStores (nodup : rows.Nodup) : ((blockStores rows H G B f).map Prod.fst).Nodup := by
  have indices : (range rows.length ×ˢ range H ×ˢ range G ×ˢ range B).Nodup :=
    nodup_range.product (nodup_range.product (nodup_range.product nodup_range))
  unfold blockStores
  rw [map_map]
  refine List.Nodup.map_on ?_ indices
  intro ⟨i, h, g, b⟩ left ⟨i', _, _, _⟩ right same
  simp only [mem_product, mem_range] at left right
  obtain ⟨sameR, rfl, rfl, rfl⟩ := blockAddr_inj left.2.1 right.2.1 left.2.2.1 right.2.2.1 left.2.2.2 right.2.2.2 same
  rw [getElem!_pos rows i left.1, getElem!_pos rows i' right.1] at sameR
  rw [(nodup.getElem_inj_iff).mp sameR]

theorem Launch.read_block (launch : Launch mem (blockStores rows H G B f) mem') (nodup : rows.Nodup) {i h g b : Nat}
    (row : i < rows.length) (head : h < H) (block : g < G) (entry : b < B) :
    mem' (blockAddr H G B rows[i]! h g b) = f i h g b := by
  refine launch.read (nodup_blockStores nodup) (mem_map.mpr ⟨(i, h, g, b), ?_, rfl⟩)
  simp [row, head, block, entry]

theorem Launch.frame_block (launch : Launch mem (blockStores rows H G B f) mem') {r : Nat} (absent : r ∉ rows)
    {addr : Nat} (low : r * (H * (G * B)) ≤ addr) (high : addr < (r + 1) * (H * (G * B))) : mem' addr = mem addr := by
  refine launch.frame ?_
  intro member
  unfold blockStores at member
  rw [map_map, mem_map] at member
  obtain ⟨⟨i, h, g, b⟩, lt, same⟩ := member
  simp only [mem_product, mem_range] at lt
  simp only [Function.comp_apply] at same
  have offset := radix_lt lt.2.1 (radix_lt lt.2.2.1 lt.2.2.2)
  have written : blockAddr H G B rows[i]! h g b = rows[i]! * (H * (G * B)) + (h * (G * B) + (g * B + b)) := by
    rw [blockAddr, Nat.add_mul, Nat.mul_assoc, Nat.add_assoc]
  rw [written] at same
  obtain ⟨u, rfl⟩ := Nat.exists_eq_add_of_le low
  have inner : u < H * (G * B) := by
    rw [Nat.add_mul, Nat.one_mul] at high
    omega
  obtain ⟨sameR, _⟩ := radix_inj offset inner same
  rw [getElem!_pos rows i lt.1] at sameR
  exact absent (sameR ▸ getElem_mem lt.1)

end

end TriaxialKV.Stores
