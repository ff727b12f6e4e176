import TriaxialKV.Cache.PagedExtend
import TriaxialKV.Lib.Spans

/-!
# Pages over whole runs

Place `t` of a sequence is place `t % page_size` of its page `t / page_size`.
-/

namespace TriaxialKV
open List Tensor Rows PageAllocator

variable {a' : PageAllocator} {first i k n q : Nat} {free seqLens : List Nat} {last : Int} {β : Type} (a : PageAllocator)

def layout (pageSize : Nat) (pages : List Nat) (len : Nat) : List Nat := (range len).map (fun t => pages[t / pageSize]! * pageSize + t % pageSize)

section
variable {pageSize : Nat} {pages : List Nat} {len t : Nat}

@[simp] theorem length_layout (pageSize : Nat) (pages : List Nat) (len : Nat) : (layout pageSize pages len).length = len := by
  simp [layout]

theorem getElem!_layout (lt : t < len) : (layout pageSize pages len)[t]! = pages[t / pageSize]! * pageSize + t % pageSize := by
  rw [getElem!_pos _ _ (by simpa using lt)]
  simp [layout]

theorem layout_page (positive : 0 < pageSize) (lt : t < len) : (layout pageSize pages len)[t]! / pageSize = pages[t / pageSize]! := by
  rw [getElem!_layout lt, mul_comm, Nat.mul_add_div positive, Nat.div_eq_of_lt (Nat.mod_lt _ positive), add_zero]

theorem layout_append_pages (positive : 0 < pageSize) (enough : pagesOf pageSize len ≤ pages.length) (more : List Nat) :
    layout pageSize (pages ++ more) len = layout pageSize pages len := by
  refine map_congr_left (fun t mem => ?_)
  have lt := mem_range.mp mem
  have page : t / pageSize < pages.length := ((lt_pagesOf positive).mpr (lt_of_le_of_lt (Nat.div_mul_le_self t pageSize) lt)).trans_le enough
  rw [getElem!_append_left more page]

theorem layout_extend (positive : 0 < pageSize) {pre : Nat} (grows : pre ≤ len)
    (size : pages.length = pagesOf pageSize pre) (enough : first + (pagesOf pageSize len - pagesOf pageSize pre) ≤ free.length)
    (tail : pre % pageSize ≠ 0 → last = ((layout pageSize pages pre)[pre - 1]! : Nat)) :
    layout pageSize pages pre ++ ((range (len - pre)).map (fun j => extendSlot pageSize pre last free first (pre + j))).map Int.toNat =
      layout pageSize (pages ++ (free.drop first).take (pagesOf pageSize len - pagesOf pageSize pre)) len := by
  obtain ⟨more, rfl⟩ := Nat.exists_eq_add_of_le grows
  rw [← layout_append_pages positive size.ge ((free.drop first).take (pagesOf pageSize (pre + more) - pagesOf pageSize pre))]
  unfold layout
  rw [range_add, map_append, Nat.add_sub_cancel_left, map_map, map_map]
  refine congrArg _ (map_congr_left (fun j lt => ?_))
  have below : pre + j < pre + more := by have := mem_range.mp lt; omega
  rw [Function.comp_apply, Function.comp_apply, extendSlot]
  split
  · next old =>
    -- the page of the last place has room
    have room : pre % pageSize ≠ 0 := by
      intro none
      obtain ⟨q, rfl⟩ := Nat.dvd_of_mod_eq_zero none
      have full : pagesOf pageSize (pageSize * q) = q := Nat.div_eq_of_lt_le (by rw [mul_comm]; omega) (by rw [add_mul, mul_comm]; omega)
      rw [full, mul_comm] at old
      omega
    have partly : 0 < pre := Nat.pos_of_ne_zero (fun none => room (by rw [none, Nat.zero_mod]))
    have count : pagesOf pageSize pre = (pre - 1) / pageSize + 1 := by
      unfold pagesOf
      rw [show pre + pageSize - 1 = pre - 1 + pageSize by omega, Nat.add_div_right _ positive]
    have below := Nat.div_add_mod' (pre - 1) pageSize
    rw [count, add_mul, one_mul] at old
    have page : (pre + j) / pageSize = (pre - 1) / pageSize := Nat.div_eq_of_lt_le (by omega) (by rw [add_mul, one_mul]; exact old)
    have place := Nat.div_add_mod' (pre + j) pageSize
    rw [page] at place
    rw [tail room, getElem!_layout (by omega), page, getElem!_append_left _ (by omega)]
    omega
  · next _ =>
    have page : pagesOf pageSize pre ≤ (pre + j) / pageSize := pagesOf_le_div positive (by omega)
    have inner : (pre + j) / pageSize < pagesOf pageSize (pre + more) := (lt_pagesOf positive).mpr (lt_of_le_of_lt (Nat.div_mul_le_self _ _) below)
    have listed := getElem!_append_right pages ((free.drop first).take (pagesOf pageSize (pre + more) - pagesOf pageSize pre))
      ((pre + j) / pageSize - pagesOf pageSize pre)
    rw [size, Nat.sub_add_cancel page, take_drop_range enough, getElem!_map_range _ (by omega)] at listed
    rw [take_drop_range enough, listed, Int.toNat_natCast]

end

section
variable {lens : List Nat} {pageSize : Nat}

theorem newPages_succ (lens : List Nat) (pageSize : Nat) (lt : i < lens.length) :
    newPages lens (lens.map (· + 1)) pageSize i = pagesOf pageSize (lens[i]! + 1) - pagesOf pageSize lens[i]! := by
  rw [newPages, getElem!_map _ lt]

theorem allocDecodeKernel_eq (lastLoc freePages : List Nat) (positive : 0 < pageSize) {pid : Nat} (lt : pid < lens.length) :
    ((allocDecodeKernel (lens.map (· + 1)) lastLoc freePages pageSize pid : Nat) : Int) =
      extendSlot pageSize lens[pid]! lastLoc[pid]! freePages (Rows.start (newPages lens (lens.map (· + 1)) pageSize) pid) lens[pid]! := by
  have size : (lens.map (· + 1)).length = lens.length := length_map _
  have taken : (lens.map (· + 1)).take (pid + 1) = (range (pid + 1)).map (fun k => lens[k]! + 1) := by
    have all : ((lens.map (· + 1)).drop 0).take (pid + 1) = _ := take_drop_range (by omega)
    rw [drop_zero] at all
    rw [all]
    refine map_congr_left (fun k mem => ?_)
    have := mem_range.mp mem
    rw [zero_add, getElem!_map _ (by omega)]
  have sum : (((lens.map (· + 1)).take (pid + 1)).map (fun len => (len + pageSize - 1) / pageSize - (len - 1 + pageSize - 1) / pageSize)).sum =
      Rows.start (newPages lens (lens.map (· + 1)) pageSize) (pid + 1) := by
    rw [taken, map_map, Rows.start]
    refine congrArg List.sum (map_congr_left (fun k mem => ?_))
    have := mem_range.mp mem
    rw [newPages_succ _ _ (by omega)]
    rfl
  unfold allocDecodeKernel
  dsimp only
  rw [sum, getElem!_map _ lt, start_succ, newPages_succ _ _ lt]
  change ((if pagesOf pageSize (lens[pid]! + 1) - pagesOf pageSize lens[pid]! = 0 then lastLoc[pid]! + 1 else
    freePages[Rows.start (newPages lens (lens.map (· + 1)) pageSize) pid + (pagesOf pageSize (lens[pid]! + 1) - pagesOf pageSize lens[pid]!) -
        (pagesOf pageSize (lens[pid]! + 1) - pagesOf pageSize lens[pid]!)]! * pageSize : Nat) : Int) = _
  rw [Nat.add_sub_cancel]
  obtain ⟨_, _⟩ := pagesOf_bounds positive lens[pid]!
  have next := (pagesOf_bounds positive (lens[pid]! + 1)).1
  have order : pagesOf pageSize lens[pid]! ≤ pagesOf pageSize (lens[pid]! + 1) := pagesOf_mono pageSize (Nat.le_succ _)
  split
  · next _ =>
    have same : pagesOf pageSize (lens[pid]! + 1) = pagesOf pageSize lens[pid]! := by omega
    rw [same] at next
    rw [extendSlot, if_pos (by omega), Nat.sub_self]
    omega
  · next _ =>
    have exact : ¬ lens[pid]! < pagesOf pageSize lens[pid]! * pageSize := by
      intro _
      have := (lt_pagesOf positive (q := pagesOf pageSize lens[pid]!)).mp (by omega : _ < pagesOf pageSize (lens[pid]! + 1))
      omega
    have whole : lens[pid]! = pagesOf pageSize lens[pid]! * pageSize := by omega
    have quotient : lens[pid]! / pageSize = pagesOf pageSize lens[pid]! := by
      conv_lhs => rw [whole]
      exact Nat.mul_div_cancel _ positive
    have rest : lens[pid]! % pageSize = 0 := by
      conv_lhs => rw [whole]
      exact Nat.mul_mod_left _ _
    rw [extendSlot, if_neg exact, quotient, rest, Nat.sub_self, add_zero, add_zero]

theorem numNewPages_succ (large : 1 < pageSize) (lens : List Nat) :
    getNumNewPages (lens.map (· + 1)) pageSize = Rows.start (newPages lens (lens.map (· + 1)) pageSize) lens.length := by
  have each : ∀ len, pagesOf pageSize (len + 1) - pagesOf pageSize len = if (len + 1) % pageSize = 1 then 1 else 0 := by
    intro len
    have positive : 0 < pageSize := by omega
    have whole := Nat.div_add_mod' len pageSize
    have small := Nat.mod_lt len positive
    have after : pagesOf pageSize (len + 1) = len / pageSize + 1 := by
      unfold pagesOf
      rw [show len + 1 + pageSize - 1 = len + pageSize by omega, Nat.add_div_right _ positive]
    have rest : (len + 1) % pageSize = (len % pageSize + 1) % pageSize := by rw [Nat.add_mod, Nat.mod_eq_of_lt large]
    by_cases aligned : len % pageSize = 0
    · have before : pagesOf pageSize len = len / pageSize :=
        Nat.div_eq_of_lt_le (by omega) (by rw [add_mul, one_mul]; omega)
      rw [rest, aligned, zero_add, Nat.mod_eq_of_lt large, after, before]
      simp
    · have last : (len % pageSize + 1) % pageSize ≠ 1 := by
        rcases Nat.lt_or_ge (len % pageSize + 1) pageSize with less | _
        · rw [Nat.mod_eq_of_lt less]
          omega
        · rw [show len % pageSize + 1 = pageSize by omega, Nat.mod_self]
          omega
      rw [rest, if_neg last, after, pagesOf_of_partial positive (by omega), Nat.sub_self]
  have count : ∀ lens : List Nat, (lens.map (· + 1)).countP (fun len => len % pageSize = 1) =
      (lens.map (fun len => pagesOf pageSize (len + 1) - pagesOf pageSize len)).sum := by
    intro lens
    induction lens with
    | nil => rfl
    | cons len lens ih =>
      rw [map_cons, countP_cons, ih, map_cons, sum_cons, each, add_comm]
      simp
  unfold getNumNewPages Rows.start
  rw [count]
  refine congrArg List.sum (ext_getElem (by simp) (fun k left right => ?_))
  have lt : k < lens.length := by simpa using left
  simp [newPages_succ _ _ lt, lt]

end

/-- A live sequence: the slots of its places, and which of its pages it has given back. -/
structure PageSeq where
  slots : List Nat
  gone : List Nat
  deriving Inhabited

namespace PageSeq

def append (s : PageSeq) (slots : List Nat) : PageSeq := { s with slots := s.slots ++ slots }

def giveBack (s : PageSeq) (q : Nat) : PageSeq := { s with gone := q :: s.gone }

def lastLoc (s : PageSeq) : Int := if s.slots = [] then -1 else (s.slots[s.slots.length - 1]! : Nat)

def owned (pageSize : Nat) (s : PageSeq) : List Nat :=
  ((range (pagesOf pageSize s.slots.length)).filter (fun q => q ∉ s.gone)).map (fun q => s.slots[q * pageSize]! / pageSize)

def Laid (pageSize : Nat) (s : PageSeq) : Prop :=
  (∀ q ∈ s.gone, q < pagesOf pageSize s.slots.length) ∧
    ∃ pages, pages.length = pagesOf pageSize s.slots.length ∧ s.slots = layout pageSize pages s.slots.length

section
variable {pageSize : Nat} {s : PageSeq}

theorem owned_eq (positive : 0 < pageSize) {pages : List Nat} (laid : s.slots = layout pageSize pages s.slots.length) :
    s.owned pageSize = ((range (pagesOf pageSize s.slots.length)).filter (fun q => q ∉ s.gone)).map (fun q => pages[q]!) := by
  refine map_congr_left (fun q mem => ?_)
  have lt := mem_range.mp (mem_filter.mp mem).1
  rw [laid, layout_page positive ((lt_pagesOf positive).mp lt), Nat.mul_div_cancel _ positive]

theorem append_extend (positive : 0 < pageSize) (laid : s.Laid pageSize) {len : Nat}
    (grows : s.slots.length ≤ len) (enough : first + (pagesOf pageSize len - pagesOf pageSize s.slots.length) ≤ free.length)
    (tail : s.slots.length % pageSize ≠ 0 → last = (s.slots[s.slots.length - 1]! : Nat)) {slots : List Nat}
    (added : slots = ((range (len - s.slots.length)).map
      (fun j => extendSlot pageSize s.slots.length last free first (s.slots.length + j))).map Int.toNat) :
    (s.append slots).Laid pageSize ∧ (s.append slots).slots.length = len ∧ (s.append slots).owned pageSize =
        s.owned pageSize ++ (free.drop first).take (pagesOf pageSize len - pagesOf pageSize s.slots.length) := by
  obtain ⟨gone, pages, size, places⟩ := laid
  have order := pagesOf_mono pageSize grows
  have grown : (s.append slots).slots =
      layout pageSize (pages ++ (free.drop first).take (pagesOf pageSize len - pagesOf pageSize s.slots.length)) len := by
    have tail' : s.slots.length % pageSize ≠ 0 → last = ((layout pageSize pages s.slots.length)[s.slots.length - 1]! : Nat) := by
      rwa [← places]
    rw [← layout_extend positive grows size enough tail', ← places, ← added]
    rfl
  have length : (s.append slots).slots.length = len := by rw [grown, length_layout]
  have laid' : (s.append slots).slots = layout pageSize (pages ++ (free.drop first).take (pagesOf pageSize len - pagesOf pageSize s.slots.length))
        (s.append slots).slots.length := by rw [length, grown]
  have count : ((free.drop first).take (pagesOf pageSize len - pagesOf pageSize s.slots.length)).length =
      pagesOf pageSize len - pagesOf pageSize s.slots.length := by
    rw [length_take, length_drop]
    omega
  refine ⟨⟨fun q mem => ?_, _, ?_, laid'⟩, length, ?_⟩
  · rw [length]
    exact (gone q mem).trans_le order
  · rw [length_append, count, size, length]
    omega
  · rw [owned_eq positive laid', owned_eq positive places, length]
    have more := take_drop_range enough
    obtain ⟨extra, bound⟩ := Nat.exists_eq_add_of_le order
    rw [bound, Nat.add_sub_cancel_left] at more ⊢
    rw [range_add, filter_append, map_append]
    refine congrArg₂ _ (map_congr_left (fun q mem => ?_)) ?_
    · have lt := mem_range.mp (mem_filter.mp mem).1
      rw [getElem!_append_left _ (by omega)]
    · have kept : ((range extra).map (pagesOf pageSize s.slots.length + ·)).filter (fun q => q ∉ (s.append slots).gone) =
          (range extra).map (pagesOf pageSize s.slots.length + ·) := by
        refine filter_eq_self.mpr (fun q mem => ?_)
        obtain ⟨k, _, rfl⟩ := mem_map.mp mem
        refine decide_eq_true (fun back => ?_)
        have := gone _ back
        omega
      rw [kept, map_map, more]
      refine map_congr_left (fun k mem => ?_)
      have lt := mem_range.mp mem
      rw [Function.comp_apply, ← size, add_comm, getElem!_append_right, getElem!_map_range _ lt]

theorem giveBack_owned (present : q < pagesOf pageSize s.slots.length) (kept : q ∉ s.gone) :
    (s.owned pageSize).Perm ((s.slots[q * pageSize]! / pageSize) :: (s.giveBack q).owned pageSize) := by
  have split : ((range (pagesOf pageSize s.slots.length)).filter (fun r => r ∉ s.gone)).Perm
      (q :: (range (pagesOf pageSize s.slots.length)).filter (fun r => r ∉ q :: s.gone)) := by
    refine (perm_ext_iff_of_nodup (nodup_range.filter _) (nodup_cons.mpr ⟨by simp, nodup_range.filter _⟩)).mpr ?_
    intro r
    by_cases same : r = q
    · subst same
      simp [present, kept]
    · simp [same]
  exact split.map (fun r => s.slots[r * pageSize]! / pageSize)

theorem giveBack_laid (laid : s.Laid pageSize) (present : q < pagesOf pageSize s.slots.length) : (s.giveBack q).Laid pageSize := by
  obtain ⟨gone, pages⟩ := laid
  refine ⟨fun r mem => ?_, pages⟩
  rcases mem_cons.mp mem with rfl | old
  · exact present
  · exact gone r old

end

end PageSeq

namespace PageAllocator

def freeGroupBegin (a : PageAllocator) : PageAllocator := { a with isNotInFreeGroup := false, freeGroup := [] }

def freeGroupEnd (a : PageAllocator) : PageAllocator :=
  let a := { a with isNotInFreeGroup := true }
  if a.freeGroup ≠ [] then a.pagedFree a.freeGroup.flatten else a

def waiting (a : PageAllocator) : List Nat :=
  if a.isNotInFreeGroup then [] else unique (a.freeGroup.flatten.map (· / a.pageSize))

def spare (a : PageAllocator) : List Nat := a.freePages ++ a.releasePages ++ a.waiting

section
variable {a : PageAllocator}

theorem sortFree_pageSize : a.mergeAndSortFree.pageSize = a.pageSize := by
  unfold mergeAndSortFree
  split <;> rfl

theorem sortFree_spare : a.mergeAndSortFree.spare.Perm a.spare := by
  unfold mergeAndSortFree
  split
  · have sorted := perm_insertionSort (· ≤ ·) (a.freePages ++ a.releasePages)
    unfold spare
    rw [append_nil]
    exact sorted.append_right _
  · exact .refl _

theorem mergeIfShort_spare (numPages : Nat) : (a.mergeIfShort numPages).spare.Perm a.spare := by
  unfold mergeIfShort
  split
  · exact a.sortFree_spare
  · exact .refl _

theorem takePages_spare {numPages : Nat} {out out' : β} (taken : a.takePages numPages out = (some out', a')) :
    numPages ≤ a.freePages.length ∧ out' = out ∧ a'.pageSize = a.pageSize ∧ (a.freePages.take numPages ++ a'.spare).Perm a.spare := by
  unfold takePages at taken
  split at taken
  · cases taken
  · next _ =>
    cases taken
    refine ⟨by omega, rfl, rfl, ?_⟩
    unfold spare waiting
    rw [← append_assoc, ← append_assoc, take_append_drop]

theorem takePages_none {numPages : Nat} {out : β} (taken : a.takePages numPages out = (none, a')) : a' = a := by
  unfold takePages at taken
  split at taken
  · cases taken
    rfl
  · cases taken

theorem unique_append {xs ys : List Nat} (apart : ∀ x ∈ xs, x ∉ ys) : (unique (xs ++ ys)).Perm (unique xs ++ unique ys) := by
  refine (perm_ext_iff_of_nodup (nodup_unique _) ?_).mpr (fun x => by simp [mem_unique])
  refine nodup_append'.mpr ⟨nodup_unique xs, nodup_unique ys, fun x left right => ?_⟩
  exact apart x (mem_unique.mp left) (mem_unique.mp right)

theorem pagedFree_pageSize (freeIndex : List Nat) : (a.pagedFree freeIndex).pageSize = a.pageSize := a.freeWith_pageSize _ _

theorem pagedFree_spare {freeIndex : List Nat} (fresh : ∀ page ∈ freeIndex.map (· / a.pageSize), page ∉ a.waiting) :
    (a.pagedFree freeIndex).spare.Perm (unique (freeIndex.map (· / a.pageSize)) ++ a.spare) := by
  unfold pagedFree freeWith
  split
  · next none =>
    subst none
    exact .refl _
  · split
    · next direct =>
      split
      · unfold spare waiting
        rw [if_pos direct]
        refine perm_iff_count.mpr (fun x => ?_)
        simp only [count_append, count_nil]
        omega
      · unfold spare waiting
        rw [if_pos direct]
        simp only [append_assoc]
        exact .refl _
    · next grouped =>
      have open_ : a.waiting = unique (a.freeGroup.flatten.map (· / a.pageSize)) := if_neg grouped
      have split : (unique ((a.freeGroup ++ [freeIndex]).flatten.map (· / a.pageSize))).Perm
          (unique (freeIndex.map (· / a.pageSize)) ++ a.waiting) := by
        rw [flatten_append, flatten_singleton, map_append, open_]
        refine (unique_append ?_).trans perm_append_comm
        intro page old new
        refine fresh page new ?_
        rw [open_]
        exact mem_unique.mpr old
      unfold spare
      rw [show ({ a with freeGroup := a.freeGroup ++ [freeIndex] } : PageAllocator).waiting =
        unique ((a.freeGroup ++ [freeIndex]).flatten.map (· / a.pageSize)) from if_neg grouped]
      refine perm_iff_count.mpr (fun x => ?_)
      have counted := perm_iff_count.mp split x
      simp only [count_append] at counted ⊢
      omega

theorem freeGroupBegin_spare (closed : a.isNotInFreeGroup = true) : a.freeGroupBegin.spare = a.spare := by
  unfold spare waiting freeGroupBegin
  rw [if_pos closed]
  rfl

theorem groupEnd_pageSize : a.freeGroupEnd.pageSize = a.pageSize := by
  unfold freeGroupEnd
  dsimp only
  split
  · exact freeWith_pageSize _ _ _
  · rfl

theorem freeGroupEnd_spare (grouped : a.isNotInFreeGroup = false) : a.freeGroupEnd.spare.Perm a.spare := by
  have open_ : a.waiting = unique (a.freeGroup.flatten.map (· / a.pageSize)) := if_neg (by rw [grouped]; exact Bool.false_ne_true)
  unfold freeGroupEnd
  dsimp only
  split
  · have freed : (({ a with isNotInFreeGroup := true } : PageAllocator).pagedFree a.freeGroup.flatten).spare.Perm _ :=
      pagedFree_spare (fun _ _ waits => by cases waits)
    refine freed.trans ?_
    unfold spare
    rw [open_]
    refine perm_iff_count.mpr (fun x => ?_)
    simp only [count_append, show ({ a with isNotInFreeGroup := true } : PageAllocator).waiting = [] from rfl, count_nil]
    omega
  · next none =>
    have empty : a.freeGroup = [] := by simpa using none
    unfold spare
    rw [open_, empty]
    exact .refl _

end

end PageAllocator

structure PagedPool where
  allocator : PageAllocator
  seqs : List PageSeq

/-- `parts` are pages of sequences, and `freeIndex` their slots in any order. -/
inductive PagedOp where
  | join
  | alloc (needSize : Nat)
  | extend (ids seqLens : List Nat) (other : Nat) (empty : Nat → Int)
  | decode (ids : List Nat)
  | free (parts : List (Nat × Nat)) (freeIndex : List Nat)
  | groupBegin
  | groupEnd
  | merge

namespace PagedPool

def lens (s : PagedPool) (ids : List Nat) : List Nat := ids.map (fun i => s.seqs[i]!.slots.length)

def grow (seqs : List PageSeq) (ids : List Nat) (slice : Nat → List Nat) (n : Nat) : List PageSeq :=
  (range n).foldl (fun seqs k => seqs.modify ids[k]! (fun s => s.append (slice k))) seqs

def giveBack (seqs : List PageSeq) (parts : List (Nat × Nat)) : List PageSeq :=
  parts.foldl (fun seqs part => seqs.modify part.1 (fun s => s.giveBack part.2)) seqs

def settle {β : Type} (s : PagedPool) (result : Option β × PageAllocator) (seqs : β → List PageSeq) : PagedPool :=
  match result with
  | (none, a) => ⟨a, s.seqs⟩
  | (some out, a) => ⟨a, seqs out⟩

def step (s : PagedPool) : PagedOp → PagedPool
  | .join => { s with seqs := s.seqs ++ [⟨[], []⟩] }
  | .alloc needSize => s.settle (s.allocator.pagedAlloc needSize) (fun out => s.seqs ++ [⟨out, []⟩])
  | .extend ids seqLens other empty =>
    let prefixLens := s.lens ids
    let lastLoc := ids.map (fun i => s.seqs[i]!.lastLoc)
    let extendNumTokens := Rows.start (extendLen prefixLens seqLens) ids.length
    s.settle (s.allocator.allocExtend other empty prefixLens seqLens lastLoc extendNumTokens) (fun out =>
      let slice k := ((out.drop (Rows.start (extendLen prefixLens seqLens) k)).take (extendLen prefixLens seqLens k)).map Int.toNat
      grow s.seqs ids slice ids.length)
  | .decode ids =>
    let seqLens := (s.lens ids).map (· + 1)
    let lastLoc := ids.map (fun i => s.seqs[i]!.lastLoc.toNat)
    s.settle (s.allocator.pagedAllocDecode seqLens lastLoc) (fun out => grow s.seqs ids (fun k => [out[k]!]) ids.length)
  | .free parts freeIndex => ⟨s.allocator.pagedFree freeIndex, giveBack s.seqs parts⟩
  | .groupBegin => { s with allocator := s.allocator.freeGroupBegin }
  | .groupEnd => { s with allocator := s.allocator.freeGroupEnd }
  | .merge => { s with allocator := s.allocator.mergeAndSortFree }

def Growable (s : PagedPool) (i : Nat) : Prop :=
  i < s.seqs.length ∧ (s.seqs[i]!.slots.length % s.allocator.pageSize ≠ 0 → s.seqs[i]!.slots.length / s.allocator.pageSize ∉ s.seqs[i]!.gone)

def guard (s : PagedPool) : PagedOp → Prop
  | .join => True
  | .alloc needSize => s.allocator.pageSize ∣ needSize
  | .extend ids seqLens _ _ => ids.Nodup ∧ seqLens.length = ids.length ∧
    ∀ k < ids.length, s.Growable ids[k]! ∧ s.seqs[ids[k]!]!.slots.length ≤ seqLens[k]!
  | .decode ids => ids.Nodup ∧ ∀ k < ids.length, s.Growable ids[k]!
  | .free parts freeIndex => parts.Nodup ∧
    (∀ part ∈ parts, part.1 < s.seqs.length ∧ part.2 < pagesOf s.allocator.pageSize s.seqs[part.1]!.slots.length ∧ part.2 ∉ s.seqs[part.1]!.gone) ∧
    ∀ slot, slot ∈ freeIndex ↔ ∃ part ∈ parts, ∃ t < s.seqs[part.1]!.slots.length,
      t / s.allocator.pageSize = part.2 ∧ s.seqs[part.1]!.slots[t]! = slot
  | .groupBegin => s.allocator.isNotInFreeGroup = true
  | .groupEnd => s.allocator.isNotInFreeGroup = false
  | .merge => True

def owned (s : PagedPool) : List Nat := s.seqs.flatMap (PageSeq.owned s.allocator.pageSize)

structure Inv (pageSize numPages : Nat) (s : PagedPool) : Prop where
  size : s.allocator.pageSize = pageSize
  laid : ∀ seq ∈ s.seqs, seq.Laid pageSize
  partition : (s.allocator.spare ++ s.owned).Perm (range' 1 numPages)

end PagedPool

section
variable {α : Type} [Inhabited α] {xs : List α}

theorem modify_split (lt : i < xs.length) : ∃ left right, xs = left ++ xs[i]! :: right ∧ ∀ f, xs.modify i f = left ++ f xs[i]! :: right := by
  refine ⟨xs.take i, xs.drop (i + 1), ?_, fun f => ?_⟩
  · rw [getElem!_pos xs i lt, cons_getElem_drop_succ, take_append_drop]
  · rw [modify_eq_take_cons_drop lt, getElem!_pos xs i lt]

theorem getElem!_modify {j : Nat} (f : α → α) (lt : j < xs.length) : (xs.modify i f)[j]! = if i = j then f xs[j]! else xs[j]! := by
  rw [getElem!_pos _ _ (by simpa using lt), getElem!_pos xs j lt, getElem_modify]

theorem mem_modify (lt : i < xs.length) {f : α → α} {x : α} (mem : x ∈ xs.modify i f) : x = f xs[i]! ∨ x ∈ xs := by
  obtain ⟨_, _, before, after⟩ := modify_split lt
  rw [after] at mem
  rcases mem_append.mp mem with here | there
  · exact .inr (by rw [before]; exact mem_append_left _ here)
  · rcases mem_cons.mp there with same | later
    · exact .inl same
    · exact .inr (by rw [before]; exact mem_append_right _ (mem_cons_of_mem _ later))

theorem flatMap_modify (lt : i < xs.length) (f : α → α) (g : α → List Nat)
    {less more : List Nat} (here : (less ++ g (f xs[i]!)).Perm (more ++ g xs[i]!)) :
    (less ++ (xs.modify i f).flatMap g).Perm (more ++ xs.flatMap g) := by
  obtain ⟨left, right, before, after⟩ := modify_split lt
  have split : xs.flatMap g = left.flatMap g ++ (g xs[i]! ++ right.flatMap g) := by
    conv_lhs => rw [before]
    rw [flatMap_append, flatMap_cons]
  rw [after, split, flatMap_append, flatMap_cons]
  refine perm_iff_count.mpr (fun x => ?_)
  have counted := perm_iff_count.mp here x
  simp only [count_append] at counted ⊢
  omega

end

namespace PagedPool
section
variable {seqs : List PageSeq} {ids : List Nat} {slice new : Nat → List Nat} {pageSize : Nat}

theorem grow_succ (seqs : List PageSeq) (ids : List Nat) (slice : Nat → List Nat) (n : Nat) :
    grow seqs ids slice (n + 1) = (grow seqs ids slice n).modify ids[n]! (fun s => s.append (slice n)) := by
  unfold grow
  rw [range_succ, foldl_append]
  rfl

theorem length_grow (seqs : List PageSeq) (ids : List Nat) (slice : Nat → List Nat) (n : Nat) : (grow seqs ids slice n).length = seqs.length := by
  induction n with
  | zero => rfl
  | succ n ih => rw [grow_succ, length_modify, ih]

theorem getElem!_grow (nodup : ids.Nodup) (present : ∀ k < ids.length, ids[k]! < seqs.length) (later : n ≤ k)
    (lt : k < ids.length) : (grow seqs ids slice n)[ids[k]!]! = seqs[ids[k]!]! := by
  induction n with
  | zero => rfl
  | succ n ih =>
    have other : ids[n]! ≠ ids[k]! := by
      rw [getElem!_pos ids n (by omega), getElem!_pos ids k lt]
      intro same
      have := (List.Nodup.getElem_inj_iff nodup).mp same
      omega
    rw [grow_succ, getElem!_modify _ (by rw [length_grow]; exact present k lt), if_neg other]
    exact ih (by omega)

theorem grow_spec (nodup : ids.Nodup) (present : ∀ k < ids.length, ids[k]! < seqs.length) (laid : ∀ seq ∈ seqs, seq.Laid pageSize)
    (round : ∀ k < ids.length, (seqs[ids[k]!]!.append (slice k)).Laid pageSize ∧
      (seqs[ids[k]!]!.append (slice k)).owned pageSize = seqs[ids[k]!]!.owned pageSize ++ new k) (le : n ≤ ids.length) :
    (∀ seq ∈ grow seqs ids slice n, seq.Laid pageSize) ∧ ((grow seqs ids slice n).flatMap (PageSeq.owned pageSize)).Perm
        ((range n).flatMap new ++ seqs.flatMap (PageSeq.owned pageSize)) := by
  induction n with
  | zero => exact ⟨laid, .refl _⟩
  | succ n ih =>
    obtain ⟨before, pages⟩ := ih (by omega)
    obtain ⟨after, added⟩ := round n (by omega)
    have lt : ids[n]! < (grow seqs ids slice n).length := by rw [length_grow]; exact present n (by omega)
    have same : (grow seqs ids slice n)[ids[n]!]! = seqs[ids[n]!]! := getElem!_grow nodup present (le_refl n) (by omega)
    rw [grow_succ]
    constructor
    · intro seq mem
      rcases mem_modify lt mem with rfl | old
      · rw [same]
        exact after
      · exact before seq old
    · have here : ([] ++ ((grow seqs ids slice n)[ids[n]!]!.append (slice n)).owned pageSize).Perm
          (new n ++ ((grow seqs ids slice n)[ids[n]!]!).owned pageSize) := by
        rw [same, nil_append, added]
        exact perm_append_comm
      refine (flatMap_modify lt (fun s => s.append (slice n)) _ here).trans ((pages.append_left _).trans ?_)
      rw [range_succ, flatMap_append, flatMap_singleton]
      refine perm_iff_count.mpr (fun x => ?_)
      simp only [count_append]
      omega

end

section
variable {seqs : List PageSeq} {pageSize : Nat}

def pageAt (pageSize : Nat) (seqs : List PageSeq) (part : Nat × Nat) : Nat := seqs[part.1]!.slots[part.2 * pageSize]! / pageSize

theorem giveBack_spec {parts : List (Nat × Nat)} (nodup : parts.Nodup) (laid : ∀ seq ∈ seqs, seq.Laid pageSize)
    (kept : ∀ part ∈ parts, part.1 < seqs.length ∧ part.2 < pagesOf pageSize seqs[part.1]!.slots.length ∧ part.2 ∉ seqs[part.1]!.gone) :
    (∀ seq ∈ giveBack seqs parts, seq.Laid pageSize) ∧ (seqs.flatMap (PageSeq.owned pageSize)).Perm
        (parts.map (pageAt pageSize seqs) ++ (giveBack seqs parts).flatMap (PageSeq.owned pageSize)) := by
  induction parts generalizing seqs with
  | nil => exact ⟨laid, .refl _⟩
  | cons part parts ih =>
    obtain ⟨lt, present, here⟩ := kept part mem_cons_self
    obtain ⟨other, nodup⟩ := nodup_cons.mp nodup
    have entry {j : Nat} (exists_ : j < seqs.length) :
        (seqs.modify part.1 (fun s => s.giveBack part.2))[j]! = if part.1 = j then seqs[j]!.giveBack part.2 else seqs[j]! :=
      getElem!_modify _ exists_
    have slots {j : Nat} (exists_ : j < seqs.length) : ((seqs.modify part.1 (fun s => s.giveBack part.2))[j]!).slots = seqs[j]!.slots := by
      rw [entry exists_]
      split <;> rfl
    obtain ⟨after, pages⟩ := @ih (seqs.modify part.1 (fun s => s.giveBack part.2)) nodup
      (fun seq mem => by
        rcases mem_modify lt mem with rfl | old
        · exact PageSeq.giveBack_laid (laid _ (by rw [getElem!_pos seqs _ lt]; exact getElem_mem _)) present
        · exact laid seq old)
      (fun part' mem => by
        obtain ⟨lt', _, here'⟩ := kept part' (mem_cons_of_mem _ mem)
        refine ⟨by rwa [length_modify], by rwa [slots lt'], ?_⟩
        rw [entry lt']
        split
        · next same =>
          intro back
          rcases mem_cons.mp back with eq | old
          · exact other (by rwa [show part = part' from Prod.ext same eq.symm])
          · exact here' old
        · exact here')
    refine ⟨after, ?_⟩
    have listed : parts.map (pageAt pageSize (seqs.modify part.1 (fun s => s.giveBack part.2))) = parts.map (pageAt pageSize seqs) := by
      refine map_congr_left (fun part' mem => ?_)
      rw [pageAt, pageAt, slots (kept part' (mem_cons_of_mem _ mem)).1]
    rw [listed] at pages
    have first : ([pageAt pageSize seqs part] ++ (seqs[part.1]!.giveBack part.2).owned pageSize).Perm
        ([] ++ seqs[part.1]!.owned pageSize) := (PageSeq.giveBack_owned present here).symm
    refine (flatMap_modify lt (fun s => s.giveBack part.2) _ first).symm.trans ?_
    exact (pages.append_left _).trans (by simp [giveBack])

end

section
variable {pageSize numPages : Nat} {s s' : PagedPool} {ids : List Nat}

theorem owned_mk (seqs : List PageSeq) (size : a.pageSize = pageSize) : (⟨a, seqs⟩ : PagedPool).owned = seqs.flatMap (PageSeq.owned pageSize) := by
  unfold owned
  rw [size]

section
variable (inv : s.Inv pageSize numPages)
include inv

theorem Inv.same_spare {a : PageAllocator} (size : a.pageSize = s.allocator.pageSize)
    (spare : a.spare.Perm s.allocator.spare) : (⟨a, s.seqs⟩ : PagedPool).Inv pageSize numPages := by
  refine ⟨size.trans inv.size, inv.laid, ?_⟩
  rw [owned_mk a s.seqs size]
  exact (spare.append_right _).trans inv.partition

theorem Inv.settle {limit need : Nat} {out : β} {seqs : β → List PageSeq}
    (grown : need ≤ (s.allocator.mergeIfShort limit).freePages.length → (∀ seq ∈ seqs out, seq.Laid pageSize) ∧
      ((seqs out).flatMap (PageSeq.owned pageSize)).Perm
        ((s.allocator.mergeIfShort limit).freePages.take need ++ s.seqs.flatMap (PageSeq.owned pageSize))) :
    (s.settle ((s.allocator.mergeIfShort limit).takePages need out) seqs).Inv pageSize numPages := by
  have merged := s.allocator.mergeIfShort_spare limit
  have kept := s.allocator.merge_pageSize limit
  cases result : (s.allocator.mergeIfShort limit).takePages need out with
  | mk given a =>
    cases given with
    | none =>
      obtain rfl := PageAllocator.takePages_none result
      exact inv.same_spare kept merged
    | some out' =>
      obtain ⟨enough, rfl, size, less⟩ := PageAllocator.takePages_spare result
      obtain ⟨laid, more⟩ := grown enough
      have size' : a.pageSize = pageSize := (size.trans kept).trans inv.size
      refine ⟨size', laid, List.Perm.trans ?_ inv.partition⟩
      have before : s.owned = s.seqs.flatMap (PageSeq.owned pageSize) := owned_mk s.allocator s.seqs inv.size
      rw [before]
      change (a.spare ++ (⟨a, seqs out'⟩ : PagedPool).owned).Perm _
      rw [owned_mk a _ size']
      refine perm_iff_count.mpr (fun x => ?_)
      have left := perm_iff_count.mp (less.trans merged) x
      have right := perm_iff_count.mp more x
      simp only [count_append] at left right ⊢
      omega

theorem Inv.nodup : (s.allocator.spare ++ s.owned).Nodup := inv.partition.nodup_iff.mpr nodup_range'

theorem Inv.laid_at (lt : i < s.seqs.length) : s.seqs[i]!.Laid pageSize := inv.laid _ (by rw [getElem!_pos s.seqs i lt]; exact getElem_mem _)

end

theorem lens_length (s : PagedPool) (ids : List Nat) : (s.lens ids).length = ids.length := length_map _

theorem getElem!_lens (s : PagedPool) (lt : k < ids.length) : (s.lens ids)[k]! = s.seqs[ids[k]!]!.slots.length := getElem!_map _ lt

theorem grow_extend (positive : 0 < pageSize) (inv : s.Inv pageSize numPages) (last : Nat → Int)
    (nodup : ids.Nodup) (present : ∀ k < ids.length, ids[k]! < s.seqs.length)
    (grows : ∀ k < ids.length, (s.lens ids)[k]! ≤ seqLens[k]!)
    (enough : Rows.start (newPages (s.lens ids) seqLens pageSize) ids.length ≤ free.length)
    (tail : ∀ k < ids.length, s.seqs[ids[k]!]!.slots.length % pageSize ≠ 0 →
      last k = (s.seqs[ids[k]!]!.slots[s.seqs[ids[k]!]!.slots.length - 1]! : Nat)) {slice : Nat → List Nat}
    (slices : ∀ k < ids.length, slice k = ((range (extendLen (s.lens ids) seqLens k)).map (fun j => extendSlot pageSize (s.lens ids)[k]!
      (last k) free (Rows.start (newPages (s.lens ids) seqLens pageSize) k) ((s.lens ids)[k]! + j))).map Int.toNat) :
    (∀ seq ∈ grow s.seqs ids slice ids.length, seq.Laid pageSize) ∧ ((grow s.seqs ids slice ids.length).flatMap (PageSeq.owned pageSize)).Perm
        (free.take (Rows.start (newPages (s.lens ids) seqLens pageSize) ids.length) ++ s.seqs.flatMap (PageSeq.owned pageSize)) := by
  rw [← flatMap_take_drop]
  refine grow_spec nodup present inv.laid (fun k lt => ?_) (le_refl _)
  have below := start_mono (newPages (s.lens ids) seqLens pageSize) (Nat.succ_le_of_lt lt)
  have rows := slices k lt
  have longer := grows k lt
  rw [start_succ] at below
  unfold newPages at below ⊢
  unfold extendLen newPages at rows
  rw [s.getElem!_lens lt] at below rows longer ⊢
  obtain ⟨laid, _, pages⟩ := PageSeq.append_extend positive (inv.laid_at (present k lt)) longer (below.trans enough) (tail k lt) rows
  exact ⟨laid, pages⟩

theorem map_getElem!_range (xs : List Nat) : xs = (range xs.length).map (fun k => xs[k]!) := by
  have listed : (xs.drop 0).take xs.length = _ := take_drop_range (by omega)
  rw [drop_zero, take_length] at listed
  simpa using listed

theorem flatMap_pages (pageSize : Nat) (pages : List Nat) : pages.flatMap (fun page => (range pageSize).map (fun j => page * pageSize + j)) =
      layout pageSize pages (pages.length * pageSize) := by
  conv_lhs => rw [map_getElem!_range pages]
  rw [flatMap_map]
  exact flatMap_const pageSize pages.length (fun i j => pages[i]! * pageSize + j)

theorem owned_layout (positive : 0 < pageSize) (pages : List Nat) : (⟨layout pageSize pages (pages.length * pageSize), []⟩ : PageSeq).Laid pageSize ∧
      (⟨layout pageSize pages (pages.length * pageSize), []⟩ : PageSeq).owned pageSize = pages := by
  have count : pagesOf pageSize (pages.length * pageSize) = pages.length := Nat.div_eq_of_lt_le (by omega) (by rw [add_mul, one_mul]; omega)
  refine ⟨⟨fun q mem => (by cases mem), pages, by rw [length_layout, count], by rw [length_layout]⟩, ?_⟩
  have places : layout pageSize pages (pages.length * pageSize) =
      layout pageSize pages (layout pageSize pages (pages.length * pageSize)).length := by rw [length_layout]
  rw [PageSeq.owned_eq positive places]
  rw [length_layout, count, filter_eq_self.mpr (by simp)]
  exact (map_getElem!_range pages).symm

theorem step_join (positive : 0 < pageSize) (inv : s.Inv pageSize numPages) : (s.step .join).Inv pageSize numPages := by
  obtain ⟨laid, none⟩ := owned_layout positive []
  rw [show ([] : List Nat).length * pageSize = 0 from zero_mul _] at laid none
  refine ⟨inv.size, fun seq mem => ?_, ?_⟩
  · rcases mem_append.mp mem with old | new
    · exact inv.laid seq old
    · rw [mem_singleton.mp new]
      exact laid
  · have same : (s.step .join).owned = s.owned := by
      unfold owned step
      rw [flatMap_append, flatMap_singleton, inv.size]
      exact (congrArg _ none).trans (append_nil _)
    rw [same]
    exact inv.partition

theorem step_alloc (positive : 0 < pageSize) (inv : s.Inv pageSize numPages) (needSize : Nat) : (s.step (.alloc needSize)).Inv pageSize numPages := by
  refine inv.settle (fun enough => ?_)
  rw [inv.size] at enough ⊢
  generalize (s.allocator.mergeIfShort (needSize / pageSize)).freePages = free at enough ⊢
  let taken := free.take (needSize / pageSize)
  have out : taken.flatMap (fun page => (range pageSize).map (fun j => page * pageSize + j)) =
      layout pageSize taken (taken.length * pageSize) :=
    flatMap_pages pageSize _
  obtain ⟨laid, pages⟩ := owned_layout positive taken
  rw [out]
  constructor
  · intro seq mem
    rcases mem_append.mp mem with old | new
    · exact inv.laid seq old
    · rw [mem_singleton.mp new]
      exact laid
  · rw [flatMap_append, flatMap_singleton, pages]
    exact perm_append_comm

theorem lastLoc_eq {seq : PageSeq} (room : seq.slots.length % pageSize ≠ 0) : seq.lastLoc = (seq.slots[seq.slots.length - 1]! : Nat) :=
  if_neg (fun none => room (by rw [none, length_nil, Nat.zero_mod]))

theorem settle_extend (positive : 0 < pageSize) (inv : s.Inv pageSize numPages) (other : Nat) (empty : Nat → Int)
    (lastLoc : List Int) (nodup : ids.Nodup) (lens : seqLens.length = ids.length)
    (live : ∀ k < ids.length, ids[k]! < s.seqs.length ∧ s.seqs[ids[k]!]!.slots.length ≤ seqLens[k]!)
    (tail : ∀ k < ids.length, s.seqs[ids[k]!]!.slots.length % pageSize ≠ 0 →
      lastLoc[k]! = (s.seqs[ids[k]!]!.slots[s.seqs[ids[k]!]!.slots.length - 1]! : Nat)) :
    (s.settle (s.allocator.allocExtend other empty (s.lens ids) seqLens lastLoc (Rows.start (extendLen (s.lens ids) seqLens) ids.length))
      (fun out => grow s.seqs ids (fun k => ((out.drop (Rows.start (extendLen (s.lens ids) seqLens) k)).take
        (extendLen (s.lens ids) seqLens k)).map Int.toNat) ids.length)).Inv pageSize numPages := by
  have grows : ∀ k < (s.lens ids).length, (s.lens ids)[k]! ≤ seqLens[k]! := by
    intro k lt
    rw [s.lens_length] at lt
    rw [s.getElem!_lens lt]
    exact (live k lt).2
  rw [allocExtend_eq (by rw [inv.size]; exact positive) grows other empty (by rw [s.lens_length])]
  refine inv.settle (fun enough => ?_)
  rw [inv.size, numNewPages_eq (by rw [lens, s.lens_length]), s.lens_length] at enough ⊢
  refine grow_extend positive inv (fun k => lastLoc[k]!) nodup (fun k lt => (live k lt).1)
    (fun k lt => grows k (by rwa [s.lens_length])) enough tail (fun k lt => ?_)
  unfold extendSlots
  rw [s.lens_length, take_drop_flatMap (by simp) lt]

theorem step_extend (positive : 0 < pageSize) (inv : s.Inv pageSize numPages) {other : Nat} {empty : Nat → Int}
    (allowed : s.guard (.extend ids seqLens other empty)) : (s.step (.extend ids seqLens other empty)).Inv pageSize numPages := by
  obtain ⟨nodup, lens, live⟩ := allowed
  refine settle_extend positive inv other empty _ nodup lens (fun k lt => ⟨(live k lt).1.1, (live k lt).2⟩)
    (fun k lt some => ?_)
  rw [getElem!_map _ lt]
  exact lastLoc_eq some

theorem settle_decode (large : 1 < pageSize) (inv : s.Inv pageSize numPages) (lastLoc : List Nat) (nodup : ids.Nodup)
    (live : ∀ k < ids.length, ids[k]! < s.seqs.length)
    (tail : ∀ k < ids.length, s.seqs[ids[k]!]!.slots.length % pageSize ≠ 0 →
      lastLoc[k]! = s.seqs[ids[k]!]!.slots[s.seqs[ids[k]!]!.slots.length - 1]!) :
    (s.settle (s.allocator.pagedAllocDecode ((s.lens ids).map (· + 1)) lastLoc)
      (fun out => grow s.seqs ids (fun k => [out[k]!]) ids.length)).Inv pageSize numPages := by
  have positive : 0 < pageSize := by omega
  refine inv.settle (fun enough => ?_)
  rw [inv.size, numNewPages_succ large, s.lens_length] at enough ⊢
  refine grow_extend positive inv (fun k => ((lastLoc[k]! : Nat) : Int)) nodup live
    (fun k lt => ?_) enough (fun k lt some => congrArg _ (tail k lt some)) (fun k lt => ?_)
  · rw [getElem!_map _ (by rwa [s.lens_length])]
    omega
  · have lt' : k < (s.lens ids).length := by rwa [s.lens_length]
    have one : extendLen (s.lens ids) ((s.lens ids).map (· + 1)) k = 1 := by
      rw [extendLen, getElem!_map _ lt', Nat.add_sub_cancel_left]
    rw [one, getElem!_map_range _ (by simpa using lt')]
    have stored := allocDecodeKernel_eq lastLoc
      (s.allocator.mergeIfShort ((s.lens ids).map (· + 1)).length).freePages positive lt'
    simp only [range_one, map_cons, map_nil, add_zero]
    rw [← stored, Int.toNat_natCast]

theorem step_decode (large : 1 < pageSize) (inv : s.Inv pageSize numPages)
    (allowed : s.guard (.decode ids)) : (s.step (.decode ids)).Inv pageSize numPages := by
  obtain ⟨nodup, live⟩ := allowed
  refine settle_decode large inv _ nodup (fun k lt => (live k lt).1) (fun k lt some => ?_)
  rw [getElem!_map _ lt, lastLoc_eq some, Int.toNat_natCast]

section
variable (positive : 0 < pageSize) (inv : s.Inv pageSize numPages) {parts : List (Nat × Nat)} {freeIndex : List Nat}
include positive inv

theorem freed_pages (kept : ∀ part ∈ parts, part.1 < s.seqs.length ∧ part.2 < pagesOf pageSize s.seqs[part.1]!.slots.length)
    (listed : ∀ slot, slot ∈ freeIndex ↔ ∃ part ∈ parts, ∃ t < s.seqs[part.1]!.slots.length,
      t / pageSize = part.2 ∧ s.seqs[part.1]!.slots[t]! = slot) (page : Nat) :
    page ∈ freeIndex.map (· / pageSize) ↔ page ∈ parts.map (pageAt pageSize s.seqs) := by
  have onPage {part : Nat × Nat} (mem : part ∈ parts) {t : Nat} (lt : t < s.seqs[part.1]!.slots.length)
      (page : t / pageSize = part.2) : s.seqs[part.1]!.slots[t]! / pageSize = pageAt pageSize s.seqs part := by
    obtain ⟨_, _, _, places⟩ := inv.laid_at (kept part mem).1
    have first := (lt_pagesOf positive).mp (kept part mem).2
    unfold pageAt
    rw [places, layout_page positive lt, layout_page positive first, page, Nat.mul_div_cancel _ positive]
  rw [mem_map, mem_map]
  constructor
  · rintro ⟨slot, mem, rfl⟩
    obtain ⟨part, present, t, lt, page, rfl⟩ := (listed slot).mp mem
    exact ⟨part, present, (onPage present lt page).symm⟩
  · rintro ⟨part, mem, rfl⟩
    have first := (lt_pagesOf positive).mp (kept part mem).2
    exact ⟨_, (listed _).mpr ⟨part, mem, part.2 * pageSize, first, Nat.mul_div_cancel _ positive, rfl⟩,
      onPage mem first (Nat.mul_div_cancel _ positive)⟩

theorem Inv.giveBack (nodup : parts.Nodup)
    (kept : ∀ part ∈ parts, part.1 < s.seqs.length ∧ part.2 < pagesOf pageSize s.seqs[part.1]!.slots.length ∧ part.2 ∉ s.seqs[part.1]!.gone)
    (listed : ∀ slot, slot ∈ freeIndex ↔ ∃ part ∈ parts, ∃ t < s.seqs[part.1]!.slots.length,
      t / pageSize = part.2 ∧ s.seqs[part.1]!.slots[t]! = slot) {a : PageAllocator} (size : a.pageSize = pageSize)
    (spare : (∀ page ∈ freeIndex.map (· / pageSize), page ∉ s.allocator.waiting) →
      a.spare.Perm (unique (freeIndex.map (· / pageSize)) ++ s.allocator.spare)) :
    (⟨a, giveBack s.seqs parts⟩ : PagedPool).Inv pageSize numPages := by
  have freed := freed_pages positive inv (fun part mem => ⟨(kept part mem).1, (kept part mem).2.1⟩) listed
  obtain ⟨laid, less⟩ := giveBack_spec nodup inv.laid kept
  have before : s.owned = s.seqs.flatMap (PageSeq.owned pageSize) := owned_mk s.allocator s.seqs inv.size
  obtain ⟨_, ownedNodup, apart⟩ := nodup_append'.mp inv.nodup
  have mine {page : Nat} (mem : page ∈ parts.map (pageAt pageSize s.seqs)) : page ∈ s.owned := by
    rw [before]
    exact less.mem_iff.mpr (mem_append_left _ mem)
  have partsNodup : (parts.map (pageAt pageSize s.seqs)).Nodup := by
    rw [before] at ownedNodup
    exact (nodup_append'.mp (less.nodup_iff.mp ownedNodup)).1
  have pages : (unique (freeIndex.map (· / pageSize))).Perm (parts.map (pageAt pageSize s.seqs)) :=
    (perm_ext_iff_of_nodup (nodup_unique _) partsNodup).mpr (fun page => mem_unique.trans (freed page))
  have spare := spare (fun page mem waits => apart (mem_append_right _ waits) (mine ((freed page).mp mem)))
  refine ⟨size, laid, List.Perm.trans ?_ inv.partition⟩
  rw [before]
  rw [owned_mk _ _ size]
  refine perm_iff_count.mpr (fun x => ?_)
  have left := perm_iff_count.mp (spare.trans (pages.append_right _)) x
  have right := perm_iff_count.mp less x
  simp only [count_append] at left right ⊢
  omega

theorem step_free (allowed : s.guard (.free parts freeIndex)) : (s.step (.free parts freeIndex)).Inv pageSize numPages := by
  obtain ⟨nodup, kept, listed⟩ := allowed
  rw [inv.size] at kept listed
  refine inv.giveBack positive nodup kept listed ((s.allocator.pagedFree_pageSize freeIndex).trans inv.size) (fun fresh => ?_)
  rw [← inv.size] at fresh ⊢
  exact PageAllocator.pagedFree_spare fresh

end

theorem step_inv (large : 1 < pageSize) (op : PagedOp) (inv : s.Inv pageSize numPages) (allowed : s.guard op) :
    (s.step op).Inv pageSize numPages := by
  have positive : 0 < pageSize := by omega
  cases op with
  | join => exact step_join positive inv
  | alloc needSize => exact step_alloc positive inv needSize
  | extend ids seqLens other empty => exact step_extend positive inv allowed
  | decode ids => exact step_decode large inv allowed
  | free parts freeIndex => exact step_free positive inv allowed
  | groupBegin =>
    exact inv.same_spare rfl (by rw [PageAllocator.freeGroupBegin_spare allowed])
  | groupEnd => exact inv.same_spare s.allocator.groupEnd_pageSize (PageAllocator.freeGroupEnd_spare allowed)
  | merge => exact inv.same_spare s.allocator.sortFree_pageSize s.allocator.sortFree_spare

end

theorem Inv.clear (size pageSize : Nat) (needSort : Bool) : (⟨pagedClear size pageSize needSort, []⟩ : PagedPool).Inv pageSize (size / pageSize) := by
  refine ⟨rfl, fun seq mem => (by cases mem), ?_⟩
  simp [PageAllocator.spare, pagedClear, PageAllocator.waiting, owned]

/-- No page is handed out twice: every page is spare or has one owner, and every slot is the place of its position on its page. -/
theorem pages_partitioned {size pageSize : Nat} (large : 1 < pageSize) (needSort : Bool) {s : PagedPool}
    (reachable : Runs.Reachable step guard ⟨pagedClear size pageSize needSort, []⟩ s) :
    (s.allocator.freePages ++ s.allocator.releasePages ++ s.allocator.waiting ++ s.seqs.flatMap (PageSeq.owned pageSize)).Perm
        (List.range' 1 (size / pageSize)) ∧
      (∀ seq ∈ s.seqs, 0 ∉ seq.owned pageSize) ∧
      (∀ i < s.seqs.length, ∀ j < s.seqs.length, i ≠ j → ∀ page ∈ s.seqs[i]!.owned pageSize, page ∉ s.seqs[j]!.owned pageSize) ∧
      ∀ seq ∈ s.seqs, ∀ t < seq.slots.length,
        seq.slots[t]! % pageSize = t % pageSize ∧ seq.slots[t]! / pageSize = seq.slots[t / pageSize * pageSize]! / pageSize := by
  have positive : 0 < pageSize := by omega
  have inv := reachable.invariant (Inv pageSize (size / pageSize)) (.clear size pageSize needSort)
    (fun s op before allowed => step_inv large op before allowed)
  have listed : s.owned = s.seqs.flatMap (PageSeq.owned pageSize) := owned_mk s.allocator s.seqs inv.size
  have partition := inv.partition
  have nodup := (nodup_append'.mp inv.nodup).2.1
  rw [listed] at partition nodup
  refine ⟨partition, fun seq member zero => ?_, fun i inside j inside' other page mine yours => ?_, fun seq member t inside => ?_⟩
  · have first := partition.mem_iff.mp (mem_append_right _ (mem_flatMap.mpr ⟨seq, member, zero⟩))
    obtain ⟨_, _, _⟩ := mem_range'.mp first
    omega
  · have pairs := pairwise_iff_getElem.mp (nodup_flatMap.mp nodup).2
    rw [getElem!_pos s.seqs i inside] at mine
    rw [getElem!_pos s.seqs j inside'] at yours
    rcases Nat.lt_or_gt_of_ne other with less | more
    · exact pairs i j inside inside' less mine yours
    · exact pairs j i inside' inside more yours mine
  · obtain ⟨_, _, _, places⟩ := inv.laid seq member
    have first : t / pageSize * pageSize < seq.slots.length := (Nat.div_mul_le_self t pageSize).trans_lt inside
    constructor
    · rw [places, getElem!_layout inside, Nat.mul_add_mod', Nat.mod_mod]
    · rw [places, layout_page positive inside, layout_page positive first, Nat.mul_div_cancel _ positive]

theorem pages_partitioned_six_to_nine : ∃ s, Runs.Reachable step guard ⟨pagedClear 16 4 true, []⟩ s ∧ s.allocator.releasePages = [1] ∧
      (s.allocator.freePages ++ s.allocator.releasePages ++ s.allocator.waiting ++ s.seqs.flatMap (PageSeq.owned 4)).Perm
        (List.range' 1 (16 / 4)) := by
  have guarded : Runs.Guarded step guard ⟨pagedClear 16 4 true, []⟩
      [.join, .extend [0] [6] 0 (fun _ => 0), .decode [0], .extend [0] [9] 0 (fun _ => 0), .groupBegin, .free [(0, 0)] [4, 5, 6, 7], .groupEnd] := by
    refine ⟨trivial, ?_, ?_, ?_, rfl, ⟨by decide, by decide +kernel, fun slot => ⟨fun member => ?_, ?_⟩⟩, rfl, trivial⟩
    · unfold guard Growable
      decide +kernel
    · unfold guard Growable
      decide +kernel
    · unfold guard Growable
      decide +kernel
    · revert slot
      decide +kernel
    · rintro ⟨_, member, t, _, page, rfl⟩
      obtain rfl := mem_singleton.mp member
      revert t
      decide +kernel
  have reachable := guarded.reachable .start
  exact ⟨_, reachable, by decide +kernel, (pages_partitioned (by decide) true reachable).1⟩

/-- With pages of one slot a decode step does not count the page it takes. -/
theorem page_one_twice : ∃ s, Runs.Reachable step guard ⟨pagedClear 4 1 false, []⟩ s ∧
      1 ∈ s.allocator.freePages ∧ 1 ∈ s.seqs[0]!.owned 1 ∧ 1 ∈ s.seqs[1]!.owned 1 := by
  have guarded : Runs.Guarded step guard ⟨pagedClear 4 1 false, []⟩ [.join, .join, .decode [0], .decode [1]] := by
    refine ⟨trivial, trivial, ?_, ?_, trivial⟩
    · unfold guard Growable
      decide +kernel
    · unfold guard Growable
      decide +kernel
  exact ⟨_, guarded.reachable .start, by decide +kernel⟩

end PagedPool

end TriaxialKV
