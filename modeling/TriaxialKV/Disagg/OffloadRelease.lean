import TriaxialKV.Disagg.DecodeOffload
import TriaxialKV.Lib.Holdings

/-! # What offloading frees -/

namespace TriaxialKV.Disagg
open List Function

variable {idx slot slots : Nat} {row : List Nat}

structure Blocks (pageSize : Nat) (row : List Nat) : Prop where
  place : ∀ t < row.length, row[t]! % pageSize = t % pageSize
  page : ∀ t < row.length, ∀ u < row.length, row[t]! / pageSize = row[u]! / pageSize → t / pageSize = u / pageSize

section
variable {c : OffloadConfig} {row : List Nat} {len q : Nat}

theorem mem_freed {freeIndex : List Nat} : q ∈ c.freed freeIndex ↔ ∃ slot ∈ freeIndex, slot / c.pageSize = q := by
  unfold OffloadConfig.freed
  split
  · next one => simp [one]
  · rw [mem_dedup, mem_map]

theorem freed_nil : c.freed [] = [] := eq_nil_iff_forall_not_mem.mpr (fun q mem => by obtain ⟨_, none_, _⟩ := mem_freed.mp mem; cases none_)

theorem nodup_freed {freeIndex : List Nat} (single : c.pageSize = 1 → freeIndex.Nodup) : (c.freed freeIndex).Nodup := by
  unfold OffloadConfig.freed
  split
  · next one => exact single one
  · exact nodup_dedup _

theorem mem_freed_take (le : len ≤ row.length) : q ∈ c.freed (row.take len) ↔ ∃ t < len, row[t]! / c.pageSize = q := by
  rw [mem_freed]
  constructor
  · rintro ⟨_, lt, page⟩
    obtain ⟨t, bound, rfl⟩ := getElem_of_mem lt
    rw [length_take] at bound
    refine ⟨t, by omega, ?_⟩
    rwa [getElem!_pos row t (by omega), ← getElem_take]
  · rintro ⟨t, bound, page⟩
    refine ⟨row[t]!, ?_, page⟩
    rw [getElem!_pos row t (by omega)]
    exact mem_take_iff_getElem.mpr ⟨t, by omega, rfl⟩

theorem mem_freed_drop : q ∈ c.freed (row.drop len) ↔ ∃ t, len ≤ t ∧ t < row.length ∧ row[t]! / c.pageSize = q := by
  rw [mem_freed]
  constructor
  · rintro ⟨_, lt, page⟩
    obtain ⟨t, bound, rfl⟩ := getElem_of_mem lt
    rw [length_drop] at bound
    refine ⟨len + t, by omega, by omega, ?_⟩
    rwa [getElem!_pos row (len + t) (by omega), ← getElem_drop]
  · rintro ⟨t, _, bound, page⟩
    refine ⟨row[t]!, ?_, page⟩
    rw [getElem!_pos row t bound]
    refine mem_drop_iff_getElem.mpr ⟨t - len, by omega, ?_⟩
    congr 1
    omega

theorem mem_freed_row : q ∈ c.freed row ↔ ∃ t < row.length, row[t]! / c.pageSize = q := by
  rw [← mem_freed_take (Nat.le_refl _), take_length]

theorem Blocks.nodup (blocks : Blocks c.pageSize row) (one : c.pageSize = 1) : row.Nodup := by
  refine pairwise_iff_getElem.mpr (fun t u lt lt' before same => ?_)
  have page := blocks.page t lt u lt' (by rw [getElem!_pos row t lt, getElem!_pos row u lt', same])
  rw [one, Nat.div_one, Nat.div_one] at page
  omega

/-- What a row holds beyond a whole number of pages. -/
theorem Blocks.rest (blocks : Blocks c.pageSize row) (whole : c.pageSize ∣ len) (le : len ≤ row.length) :
    (∃ t, len ≤ t ∧ t < row.length ∧ row[t]! / c.pageSize = q) ↔ (∃ t < row.length, row[t]! / c.pageSize = q) ∧ q ∉ c.freed (row.take len) := by
  constructor
  · rintro ⟨u, after, bound, rfl⟩
    refine ⟨⟨u, bound, rfl⟩, fun front => ?_⟩
    obtain ⟨t, before, same⟩ := (mem_freed_take le).mp front
    have page := blocks.page t (by omega) u bound same
    obtain ⟨pages, rfl⟩ := whole
    have low : t / c.pageSize < pages := Nat.div_lt_of_lt_mul before
    have high : pages ≤ u / c.pageSize := (Nat.le_div_iff_mul_le c.positive).mpr (by rw [Nat.mul_comm]; exact after)
    omega
  · rintro ⟨⟨t, bound, rfl⟩, apart⟩
    refine ⟨t, Nat.le_of_not_lt (fun before => apart ?_), bound, rfl⟩
    exact (mem_freed_take le).mpr ⟨t, before, rfl⟩

theorem Blocks.layout (pages : List Nat) (pos : 0 < c.pageSize) (nodup : pages.Nodup) (enough : pagesOf c.pageSize len ≤ pages.length) :
    Blocks c.pageSize (layout c.pageSize pages len) := by
  refine ⟨fun t lt => ?_, fun t lt u lt' same => ?_⟩
  · rw [length_layout] at lt
    rw [getElem!_layout lt, Nat.mul_comm, Nat.mul_add_mod, Nat.mod_mod]
  · rw [length_layout] at lt lt'
    rw [layout_page pos lt, layout_page pos lt'] at same
    have first : t / c.pageSize < pages.length :=
      Nat.lt_of_lt_of_le ((lt_pagesOf pos).mpr (by have := Nat.div_mul_le_self t c.pageSize; omega)) enough
    have second : u / c.pageSize < pages.length :=
      Nat.lt_of_lt_of_le ((lt_pagesOf pos).mpr (by have := Nat.div_mul_le_self u c.pageSize; omega)) enough
    rw [getElem!_pos pages _ first, getElem!_pos pages _ second] at same
    exact (List.Nodup.getElem_inj_iff nodup).mp same

theorem getElem!_concat {t : Nat} (lt : t < row.length) : (row ++ [slot])[t]! = row[t]! := by
  rw [getElem!_pos (row ++ [slot]) t (by rw [length_append]; omega), getElem!_pos row t lt, getElem_append_left lt]

theorem getElem!_concat_last : (row ++ [slot])[row.length]! = slot := by
  rw [getElem!_pos (row ++ [slot]) _ (by rw [length_append]; exact Nat.lt_succ_self _), getElem_append_right (Nat.le_refl _)]
  simp

theorem Blocks.concat (blocks : Blocks c.pageSize row) (place : slot % c.pageSize = row.length % c.pageSize)
    (page : ∀ t < row.length, row[t]! / c.pageSize = slot / c.pageSize → t / c.pageSize = row.length / c.pageSize) :
    Blocks c.pageSize (row ++ [slot]) := by
  have split : ∀ t < (row ++ [slot]).length, t < row.length ∨ t = row.length := by
    intro t bound
    rw [length_append, length_singleton] at bound
    omega
  refine ⟨fun t bound => ?_, fun t bound u bound' same => ?_⟩
  · rcases split t bound with lt | rfl
    · rw [getElem!_concat lt]
      exact blocks.place t lt
    · rw [getElem!_concat_last]
      exact place
  · rcases split t bound with lt | rfl <;> rcases split u bound' with lt' | rfl
    · rw [getElem!_concat lt, getElem!_concat lt'] at same
      exact blocks.page t lt u lt' same
    · rw [getElem!_concat lt, getElem!_concat_last] at same
      exact page t lt same
    · rw [getElem!_concat lt', getElem!_concat_last] at same
      exact (page u lt' same.symm).symm
    · rfl

theorem exists_concat {p : Nat → Prop} : (∃ t < (row ++ [slot]).length, p (row ++ [slot])[t]!) ↔ (∃ t < row.length, p row[t]!) ∨ p slot := by
  constructor
  · rintro ⟨t, bound, holds⟩
    rw [length_append, length_singleton] at bound
    rcases Nat.lt_or_ge t row.length with lt | _
    · rw [getElem!_concat lt] at holds
      exact .inl ⟨t, lt, holds⟩
    · obtain rfl : t = row.length := by omega
      rw [getElem!_concat_last] at holds
      exact .inr holds
  · rintro (⟨t, lt, holds⟩ | holds)
    · exact ⟨t, by rw [length_append]; omega, by rwa [getElem!_concat lt]⟩
    · exact ⟨row.length, by rw [length_append]; exact Nat.lt_succ_self _, by rwa [getElem!_concat_last]⟩

end

namespace OffloadManager
variable {c : OffloadConfig} {s s' : OffloadManager} {prompts : Nat → List Nat} {steps : Nat → Nat} {numPages numRows i : Nat}

def timedGuard (c : OffloadConfig) (steps : Nat → Nat) (s : OffloadManager) (op : OffloadOp) : Prop :=
  s.guard c op ∧ match op with
    | .result i _ finish _ => finish = decide (steps i + 1 ≤ (s.reqs i).outputIds.length)
    | _ => True

def Safe (c : OffloadConfig) (s : OffloadManager) : Prop :=
  (∀ i, (s.reqs i).reqPoolIdx ≠ none → (s.reqs i).finished = false → ∀ t < (s.reqs i).row.length, (s.reqs i).row[t]! / c.pageSize ∉ s.freePages) ∧
    s.freePages.Nodup

def Drained (s : OffloadManager) : Prop :=
  (∀ i, (s.reqs i).reqPoolIdx ≠ none → (s.reqs i).finished = true) ∧ s.ongoingOffload = [] ∧ s.freeGroup = none

/-- Decoding requests keep their slots, nothing is freed twice, and in the end all is free. -/
def ReleasesRight (c : OffloadConfig) (prompts : Nat → List Nat) (steps : Nat → Nat) : Prop :=
  ∀ numPages numRows s, Runs.Run (fun s op => s.step c op) (timedGuard c steps) (init prompts numPages numRows) s →
    s.Safe c ∧ (∀ op, s.timedGuard c steps op → s.step c op ≠ none) ∧
      (s.Drained → (∀ page, 1 ≤ page ∧ page ≤ numPages → page ∈ s.freePages) ∧ ∀ row < numRows, row ∈ s.freeRows)

/-- No stride of tokens comes together before the last token of the request, nor with it where pages have one slot and the prompt is not empty. -/
def Short (c : OffloadConfig) (promptLen steps : Nat) : Prop :=
  promptLen % c.pageSize + steps < c.offloadStride ∧ (c.pageSize = 1 → 0 < promptLen → steps + 1 < c.offloadStride)

inductive Phase (c : OffloadConfig) (steps : Nat) (req : OffloadReq) (state : Option OffloadedState) : List HostCopy → Prop where
  | waiting (outputs : req.outputIds = []) (row : req.reqPoolIdx = none) (decoding : req.finished = false)
      (kept : req.kvCommittedFreed = false ∧ req.kvOverallocatedFreed = false) (unknown : state = none) : Phase c steps req state []
  | decoding (outputs : req.outputIds ≠ []) (row : req.reqPoolIdx ≠ none) (decoding : req.finished = false)
      (kept : req.kvCommittedFreed = false ∧ req.kvOverallocatedFreed = false)
      (early : req.outputIds.length ≤ steps + 1) (room : req.originInputIds.length + req.outputIds.length ≤ req.row.length + 1)
      (blocks : Blocks c.pageSize req.row)
      (untouched : ∀ st, state = some st → st.prefillLen = req.originInputIds.length / c.pageSize * c.pageSize ∧ st.incLen = 0) :
      Phase c steps req state []
  | copying {copy : HostCopy} (outputs : req.outputIds ≠ []) (row : req.reqPoolIdx ≠ none) (finished : req.finished = true)
      (kept : req.kvCommittedFreed = false ∧ req.kvOverallocatedFreed = false) (blocks : Blocks c.pageSize req.row)
      (whole : c.pageSize ∣ copy.start) (inside : copy.start ≤ req.row.length) :
      Phase c steps req state [copy]
  | released (outputs : req.outputIds ≠ []) (row : req.reqPoolIdx = none) : Phase c steps req state []

def copiesOf (s : OffloadManager) (i : Nat) : List HostCopy := s.ongoingOffload.filter (fun copy => decide (copy.req = i))

/-- What is before the last copy of a request has been given back. -/
def freedUpTo (s : OffloadManager) (i : Nat) : Nat := (s.copiesOf i).head?.elim 0 HostCopy.start

def HoldsPage (c : OffloadConfig) (s : OffloadManager) (i page : Nat) : Prop :=
  (s.reqs i).reqPoolIdx ≠ none ∧ ∃ t, s.freedUpTo i ≤ t ∧ t < (s.reqs i).row.length ∧ (s.reqs i).row[t]! / c.pageSize = page

/-- The free pages, with those that the open group is going to free. -/
def freeable (c : OffloadConfig) (s : OffloadManager) : List Nat := s.freePages ++ c.freed (s.freeGroup.getD [])

section
variable {freeIndex more : List Nat} {q : Nat}

theorem holdsPage_all (none_ : s.copiesOf i = []) :
    s.HoldsPage c i q ↔ (s.reqs i).reqPoolIdx ≠ none ∧ ∃ t < (s.reqs i).row.length, (s.reqs i).row[t]! / c.pageSize = q := by
  simp [HoldsPage, freedUpTo, none_]

theorem holdsPage_congr {j : Nat} (req : s'.reqs j = s.reqs j) (copies : s'.copiesOf j = s.copiesOf j) : s'.HoldsPage c j q ↔ s.HoldsPage c j q := by
  rw [HoldsPage, HoldsPage, freedUpTo, freedUpTo, req, copies]

theorem freeable_closed (closed : s.freeGroup = none) : s.freeable c = s.freePages := by
  rw [freeable, closed, Option.getD_none, freed_nil, append_nil]

theorem freeable_congr (pages : s'.freePages = s.freePages) (group : s'.freeGroup = s.freeGroup) : s'.freeable c = s.freeable c := by
  rw [freeable, freeable, pages, group]

theorem freeable_holdings {space : Nat → Prop} {own : Nat → Nat → Prop} (pages : s'.freePages = s.freePages) (group : s'.freeGroup = s.freeGroup)
    (held : Holdings space (s.freeable c) own) : Holdings space (s'.freeable c) own := by
  rwa [freeable_congr pages group]

theorem free_congr (c : OffloadConfig) (freeIndex : List Nat) (pages : s'.freePages = s.freePages) (group : s'.freeGroup = s.freeGroup) :
    (s'.free c freeIndex).freePages = (s.free c freeIndex).freePages ∧ (s'.free c freeIndex).freeGroup = (s.free c freeIndex).freeGroup := by
  simp only [free, pages, group, and_self]

/-- In a group only the slots count, not the calls. -/
theorem free_free (inGroup : s.freeGroup ≠ none) : (s.free c freeIndex).free c more = s.free c (freeIndex ++ more) := by
  obtain ⟨group, here⟩ := Option.ne_none_iff_exists'.mp inGroup
  simp [free, here]

theorem mem_freeable_free : q ∈ (s.free c freeIndex).freeable c ↔ q ∈ s.freeable c ∨ q ∈ c.freed freeIndex := by
  unfold freeable free
  cases s.freeGroup with
  | none => simp [freed_nil]
  | some group =>
    simp only [Option.elim_some, append_nil, Option.map_some, Option.getD_some, mem_append, mem_freed, or_and_right, exists_or, or_assoc]

theorem nodup_freeable_free (nodup : (s.freeable c).Nodup) (fresh : ∀ q ∈ c.freed freeIndex, q ∉ s.freeable c)
    (single : c.pageSize = 1 → freeIndex.Nodup) : ((s.free c freeIndex).freeable c).Nodup := by
  unfold freeable at nodup fresh ⊢
  unfold free
  cases group : s.freeGroup with
  | none =>
    simp only [group, Option.getD_none, freed_nil, append_nil] at nodup fresh
    simp only [Option.elim_none, Option.map_none, Option.getD_none, freed_nil, append_nil]
    refine nodup_append.mpr ⟨nodup, nodup_freed single, ?_⟩
    rintro q old _ new rfl
    exact fresh q new old
  | some group' =>
    simp only [group, Option.getD_some] at nodup fresh
    simp only [Option.elim_some, append_nil, Option.map_some, Option.getD_some]
    obtain ⟨pages, slots, apart⟩ := nodup_append.mp nodup
    refine nodup_append.mpr ⟨pages, nodup_freed (fun one => nodup_append.mpr ⟨?_, single one, ?_⟩), ?_⟩
    · rwa [OffloadConfig.freed, if_pos one] at slots
    · rintro q old _ new rfl
      have listed {slots : List Nat} (mem : q ∈ slots) : q ∈ c.freed slots := mem_freed.mpr ⟨q, mem, by rw [one, Nat.div_one]⟩
      exact fresh q (listed new) (mem_append_right _ (listed old))
    · rintro q old _ new rfl
      obtain ⟨slot, mem, page⟩ := mem_freed.mp new
      rcases mem_append.mp mem with mem | mem
      · exact apart q old q (mem_freed.mpr ⟨slot, mem, page⟩) rfl
      · exact fresh q (mem_freed.mpr ⟨slot, mem, page⟩) (mem_append_left _ old)

theorem free_holdings {space : Nat → Prop} {own own' : Nat → Nat → Prop} (held : Holdings space (s.freeable c) own)
    (single : c.pageSize = 1 → freeIndex.Nodup) (mine : ∀ q ∈ c.freed freeIndex, own i q) (left : ∀ q, own' i q ↔ own i q ∧ q ∉ c.freed freeIndex)
    (others : ∀ j, j ≠ i → ∀ q, own' j q ↔ own j q) : Holdings space ((s.free c freeIndex).freeable c) own' :=
  held.give (nodup_freeable_free held.nodup (fun q mem => held.apart i q (mine q mem)) single) (fun _ => mem_freeable_free) mine left others

end

structure ReleaseInv (c : OffloadConfig) (prompts : Nat → List Nat) (steps : Nat → Nat) (numPages numRows : Nat) (s : OffloadManager) : Prop where
  origin : ∀ i, (s.reqs i).originInputIds = prompts i
  phase : ∀ i, Phase c (steps i) (s.reqs i) (s.offloadedState i) (s.copiesOf i)
  pages : Holdings (fun page => 1 ≤ page ∧ page ≤ numPages) (s.freeable c) (s.HoldsPage c)
  rows : Holdings (· < numRows) s.freeRows (fun i row => (s.reqs i).reqPoolIdx = some row)

theorem ReleaseInv.update (inv : s.ReleaseInv c prompts steps numPages numRows) (i : Nat)
    (others : ∀ j, j ≠ i → s'.reqs j = s.reqs j ∧ s'.offloadedState j = s.offloadedState j ∧ s'.copiesOf j = s.copiesOf j)
    (origin : (s'.reqs i).originInputIds = (s.reqs i).originInputIds)
    (phase : Phase c (steps i) (s'.reqs i) (s'.offloadedState i) (s'.copiesOf i))
    (pages : Holdings (fun page => 1 ≤ page ∧ page ≤ numPages) (s'.freeable c) (s'.HoldsPage c))
    (rows : Holdings (· < numRows) s'.freeRows (fun i row => (s'.reqs i).reqPoolIdx = some row)) :
    s'.ReleaseInv c prompts steps numPages numRows := by
  refine ⟨fun j => ?_, fun j => ?_, pages, rows⟩
  · by_cases same : j = i
    · subst same
      rw [origin, inv.origin]
    · rw [(others j same).1, inv.origin]
  · by_cases same : j = i
    · subst same
      exact phase
    · obtain ⟨reqs, states, copies⟩ := others j same
      rw [reqs, states, copies]
      exact inv.phase j

theorem ReleaseInv.release (inv : s.ReleaseInv c prompts steps numPages numRows) (freeIndex : List Nat) (row : (s.reqs i).reqPoolIdx = some idx)
    (single : c.pageSize = 1 → freeIndex.Nodup) (whole : ∀ q, q ∈ c.freed freeIndex ↔ s.HoldsPage c i q)
    (others : ∀ j, j ≠ i → s'.reqs j = s.reqs j ∧ s'.offloadedState j = s.offloadedState j ∧ s'.copiesOf j = s.copiesOf j)
    (origin : (s'.reqs i).originInputIds = (s.reqs i).originInputIds) (gone : (s'.reqs i).reqPoolIdx = none)
    (outputs : (s'.reqs i).outputIds ≠ []) (copies : s'.copiesOf i = [])
    (freed : s'.freeable c = (s.free c freeIndex).freeable c) (freeRows : s'.freeRows = s.freeRows ++ [idx]) :
    s'.ReleaseInv c prompts steps numPages numRows := by
  refine inv.update i others origin (by rw [copies]; exact .released outputs gone) ?_ ?_
  · rw [freed]
    refine free_holdings inv.pages single (fun q => (whole q).mp) (fun q => ?_) (fun j other q => ?_)
    · rw [whole]
      exact iff_of_false (fun held => held.1 gone) (fun both => both.2 both.1)
    · exact holdsPage_congr (others j other).1 (others j other).2.2
  · rw [freeRows]
    refine inv.rows.release (i := i) (nodup_singleton _) (fun q => ?_) (fun q held => ?_) (fun j other q => ?_)
    · rw [mem_singleton, row, Option.some.injEq, eq_comm]
    · rw [gone] at held
      cases held
    · rw [(others j other).1]

theorem mem_layout_pages {pages : List Nat} {len q : Nat} (exact_ : pages.length = pagesOf c.pageSize len) :
    (∃ t < (layout c.pageSize pages len).length, (layout c.pageSize pages len)[t]! / c.pageSize = q) ↔ q ∈ pages := by
  rw [length_layout]
  constructor
  · rintro ⟨t, lt, rfl⟩
    have bound : t / c.pageSize < pages.length := by
      rw [exact_, lt_pagesOf c.positive]
      have := Nat.div_mul_le_self t c.pageSize
      omega
    rw [layout_page c.positive lt, getElem!_pos pages _ bound]
    exact getElem_mem bound
  · intro lt
    obtain ⟨k, bound, rfl⟩ := getElem_of_mem lt
    have start : k * c.pageSize < len := by rwa [exact_, lt_pagesOf c.positive] at bound
    refine ⟨k * c.pageSize, start, ?_⟩
    rw [layout_page c.positive start, Nat.mul_div_cancel _ c.positive, getElem!_pos pages _ bound]

theorem start_release (inv : s.ReleaseInv c prompts steps numPages numRows) {first : Nat} (allowed : s.guard c (.start i first))
    (done : s.step c (.start i first) = some s') : s'.ReleaseInv c prompts steps numPages numRows := by
  cases done
  obtain ⟨closed, noRow, empty, rowLeft, enough⟩ := allowed
  have phase := inv.phase i
  obtain ⟨idx, _, rowList⟩ := exists_cons_of_ne_nil rowLeft
  generalize pages : pagesOf c.pageSize (s.reqs i).originInputIds.length = k at enough
  have size : (s.freePages.take k).length = k := by
    rw [length_take]
    omega
  have nodup : (s.freePages.take k).Nodup := inv.pages.nodup.sublist ((take_sublist _ _).trans (sublist_append_left _ _))
  have blocks : Blocks c.pageSize (layout c.pageSize (s.freePages.take k) (s.reqs i).originInputIds.length) :=
    Blocks.layout _ c.positive nodup (by rw [pages, size])
  have copies : s.copiesOf i = [] := by
    cases h : s.copiesOf i with
    | nil => rfl
    | cons copy rest =>
      rw [h] at phase
      cases phase with
      | copying outputs => exact absurd empty outputs
  refine inv.update i (fun j other => ⟨update_of_ne other _ _, rfl, rfl⟩) (by simp [setReq]) ?_ ?_ ?_
  · rw [copies] at phase
    cases phase with
    | waiting _ _ decoding kept unknown =>
      show Phase c (steps i) (Function.update s.reqs i _ i) (s.offloadedState i) (s.copiesOf i)
      rw [copies, update_self, unknown]
      refine .decoding (cons_ne_nil _ _) (by rw [rowList]; exact Option.some_ne_none _) decoding kept ?_ ?_ ?_ nofun
      · exact Nat.le_add_left _ _
      · rw [length_layout]
        rfl
      · exact blocks
    | decoding outputs => exact absurd empty outputs
    | released outputs => exact absurd empty outputs
  · have free := inv.pages
    rw [freeable_closed closed, ← take_append_drop k s.freePages] at free
    rw [freeable_closed (by exact closed)]
    refine free.take (i := i) _ (fun q => ?_) (fun j other q => ?_)
    · rw [holdsPage_all copies, holdsPage_all (by exact copies)]
      simp only [setReq, update_self, noRow, rowList, head?_cons, ne_eq, reduceCtorEq, not_false_eq_true,
        not_true_eq_false, true_and, false_and, false_or]
      exact mem_layout_pages (by rw [size, pages])
    · exact holdsPage_congr (update_of_ne other _ _) rfl
  · have free := inv.rows
    rw [rowList] at free ⊢
    refine Holdings.take (i := i) [idx] free (fun q => ?_) (fun j other q => ?_)
    · simp [setReq, noRow, eq_comm]
    · simp [setReq, other]

theorem succ_page {len : Nat} (place : slot % c.pageSize = len % c.pageSize) (inner : (len + 1) % c.pageSize ≠ 0) :
    (slot + 1) / c.pageSize = slot / c.pageSize ∧ (slot + 1) % c.pageSize = (len + 1) % c.pageSize ∧ (len + 1) / c.pageSize = len / c.pageSize := by
  have pos := c.positive
  have small : len % c.pageSize + 1 < c.pageSize := by
    have lt := Nat.mod_lt len pos
    by_contra large
    have full : len % c.pageSize + 1 = c.pageSize := by omega
    apply inner
    rw [← Nat.mod_add_mod, full, Nat.mod_self]
  have cut : ∀ x, x % c.pageSize = len % c.pageSize → (x + 1) / c.pageSize = x / c.pageSize := by
    intro x same
    conv_lhs => rw [← Nat.div_add_mod x c.pageSize, Nat.add_assoc, Nat.mul_add_div pos, same, Nat.div_eq_of_lt small, Nat.add_zero]
  refine ⟨cut slot place, ?_, cut len rfl⟩
  rw [← Nat.mod_add_mod, place, Nat.mod_add_mod]

/-- The row of the request has one more slot. -/
def lengthened (s : OffloadManager) (i slot : Nat) (pages : List Nat) : OffloadManager :=
  { s.setReq i { s.reqs i with row := (s.reqs i).row ++ [slot] } with freePages := pages }

section
variable {pages : List Nat} (copies : s.copiesOf i = [])
include copies

theorem lengthened_holds (held : (s.reqs i).reqPoolIdx ≠ none) (j q : Nat) :
    (s.lengthened i slot pages).HoldsPage c j q ↔ s.HoldsPage c j q ∨ j = i ∧ slot / c.pageSize = q := by
  by_cases same : j = i
  · subst same
    rw [holdsPage_all copies, holdsPage_all (by exact copies)]
    simp only [lengthened, setReq, update_self, held, ne_eq, not_false_eq_true, true_and]
    exact exists_concat (p := fun slot => slot / c.pageSize = q)
  · have kept : (s.lengthened i slot pages).HoldsPage c j q ↔ s.HoldsPage c j q := holdsPage_congr (update_of_ne same _ _) rfl
    simp [kept, same]

theorem ReleaseInv.lengthened (inv : s.ReleaseInv c prompts steps numPages numRows) (closed : s.freeGroup = none)
    (phase : Phase c (steps i) { s.reqs i with row := (s.reqs i).row ++ [slot] } (s.offloadedState i) [])
    (held : Holdings (fun page => 1 ≤ page ∧ page ≤ numPages) pages ((s.lengthened i slot pages).HoldsPage c)) :
    (s.lengthened i slot pages).ReleaseInv c prompts steps numPages numRows := by
  refine inv.update i (fun j other => ⟨update_of_ne other _ _, rfl, rfl⟩) ?_ ?_ (by rwa [freeable_closed (by exact closed)]) ?_
  · simp [OffloadManager.lengthened, setReq]
  · show Phase c (steps i) (Function.update s.reqs i _ i) (s.offloadedState i) (s.copiesOf i)
    rwa [copies, update_self]
  · refine inv.rows.congr (fun j q => ?_)
    by_cases same : j = i
    · subst same
      simp [OffloadManager.lengthened, setReq]
    · simp [OffloadManager.lengthened, setReq, same]

end

theorem prepare_release (inv : s.ReleaseInv c prompts steps numPages numRows) (allowed : s.guard c (.prepare i))
    (done : s.step c (.prepare i) = some s') : s'.ReleaseInv c prompts steps numPages numRows := by
  obtain ⟨closed, row, running, left⟩ := allowed
  have phase := inv.phase i
  generalize copies : s.copiesOf i = listed at phase
  cases phase with
  | waiting _ none_ => exact absurd none_ row
  | released _ none_ => exact absurd none_ row
  | copying _ _ ended =>
    rw [running] at ended
    cases ended
  | decoding outputs _ _ kept early room blocks untouched =>
    have free := inv.pages
    rw [freeable_closed closed] at free
    have phase (slot : Nat) (blocks : Blocks c.pageSize ((s.reqs i).row ++ [slot])) :
        Phase c (steps i) { s.reqs i with row := (s.reqs i).row ++ [slot] } (s.offloadedState i) [] :=
      .decoding outputs row running kept early (by rw [length_append]; exact Nat.le_succ_of_le room) blocks untouched
    unfold step at done
    dsimp only at done
    split at done
    · next full =>
      cases done
      obtain ⟨page, _, list⟩ := exists_cons_of_ne_nil (left full)
      rw [list, headD_cons, tail_cons]
      have div : page * c.pageSize / c.pageSize = page := Nat.mul_div_cancel _ c.positive
      rw [list] at free
      refine inv.lengthened copies closed (phase _ (blocks.concat ?_ (fun t lt same => ?_)))
        (Holdings.take (i := i) [page] free (fun q => ?_) (fun j other q => ?_))
      · rw [Nat.mul_mod_left, full]
      · rw [div] at same
        exact absurd mem_cons_self (free.apart i page ((holdsPage_all copies).mpr ⟨row, t, lt, same⟩))
      · rw [lengthened_holds copies row, div, mem_singleton, and_iff_right rfl, eq_comm (a := q)]
      · rw [lengthened_holds copies row]
        simp [other]
    · next inner =>
      cases done
      have some_ : 0 < (s.reqs i).row.length := by
        have := length_pos_iff.mpr outputs
        by_contra empty
        rw [Nat.eq_zero_of_not_pos empty] at inner
        exact inner (Nat.zero_mod _)
      obtain ⟨len, size⟩ : ∃ len, (s.reqs i).row.length = len + 1 := ⟨_, (Nat.succ_pred_eq_of_pos some_).symm⟩
      have last : (s.reqs i).row.getLastD 0 = (s.reqs i).row[len]! := by
        rw [getLastD_eq_getLast?, getLast?_eq_getElem?, size, getElem!_pos _ len (by omega)]
        simp [size]
      rw [last]
      rw [size] at inner
      obtain ⟨page, place, block⟩ := succ_page (c := c) (blocks.place len (by omega)) inner
      refine inv.lengthened copies closed (phase _ (blocks.concat ?_ (fun t lt same => ?_))) (free.congr (fun j q => ?_))
      · rw [place, size]
      · rw [page] at same
        rw [blocks.page t lt len (by omega) same, size, block]
      · rw [lengthened_holds copies row, page]
        constructor
        · rintro (old | ⟨rfl, rfl⟩)
          · exact old
          · exact (holdsPage_all copies).mpr ⟨row, len, by omega, rfl⟩
        · exact .inl

theorem ack_release (inv : s.ReleaseInv c prompts steps numPages numRows) (allowed : s.guard c .ack) :
    ∃ s', s.step c .ack = some s' ∧ s'.ReleaseInv c prompts steps numPages numRows := by
  obtain ⟨closed, some_⟩ := allowed
  obtain ⟨copy, rest, queue⟩ := exists_cons_of_ne_nil some_
  have phase := inv.phase copy.req
  have listed : s.copiesOf copy.req = copy :: rest.filter (fun other => decide (other.req = copy.req)) := by
    rw [copiesOf, queue]
    simp
  rw [listed] at phase
  generalize others : rest.filter (fun other => decide (other.req = copy.req)) = others at phase
  cases phase with
  | copying outputs row finished kept blocks whole inside =>
    obtain ⟨idx, held⟩ := Option.ne_none_iff_exists'.mp row
    obtain ⟨s', done⟩ : ∃ s', s.step c .ack = some s' := by
      show ∃ s', s.checkOffloadProgress c = some s'
      rw [checkOffloadProgress, queue]
      simp [finished, releaseFinishedReq, kept, held]
    refine ⟨s', done, ?_⟩
    cases progress_acknowledged queue done with
    | running live =>
      rw [finished] at live
      cases live
    | finished _ row' =>
      obtain rfl : idx = _ := Option.some.inj (held.symm.trans row')
      refine inv.release ((s.reqs copy.req).row.drop copy.start) held (fun one => (blocks.nodup one).sublist (drop_sublist _ _)) (fun q => ?_)
        (fun j other => ⟨update_of_ne other _ _, update_of_ne other _ _, ?_⟩) ?_ ?_ ?_ others rfl rfl
      · rw [mem_freed_drop, HoldsPage, freedUpTo, listed]
        exact (and_iff_right row).symm
      · simp [copiesOf, queue, Ne.symm other]
      · simp
      · simp
      · simpa using outputs

theorem early_untouched (inc : (s.stateOf c i).incLen = 0) : s.early c i = (s.reqs i).row.take (s.stateOf c i).prefillLen := by
  unfold early
  split
  · rfl
  · next _ =>
    have zero : (s.stateOf c i).prefillLen = 0 := by omega
    rw [zero, take_zero]

theorem alignedLen_untouched
    (state : (s.stateOf c i).prefillLen = (s.reqs i).originInputIds.length / c.pageSize * c.pageSize ∧ (s.stateOf c i).incLen = 0) :
    s.alignedLen c i = ((s.reqs i).originInputIds.length % c.pageSize + (s.reqs i).outputIds.dropLast.length) / c.offloadStride *
      c.offloadStride := by
  have cut := Nat.mod_add_div' (s.reqs i).originInputIds.length c.pageSize
  rw [alignedLen, state.1, state.2, Nat.sub_zero]
  congr 2
  omega

theorem stateOf_setState {state : OffloadedState} : (s.setState i (some state)).stateOf c i = state := by
  simp [stateOf, setState]

/-- The next token of the request has come. -/
def noted (s : OffloadManager) (i token : Nat) (finish : Bool) : OffloadManager :=
  s.setReq i { s.reqs i with outputIds := (s.reqs i).outputIds ++ [token], finished := finish }

section
variable {token : Nat} {finish : Bool}

theorem noted_reqs :
    (s.noted i token finish).reqs i = { s.reqs i with outputIds := (s.reqs i).outputIds ++ [token], finished := finish } :=
  update_self _ _ _

theorem noted_other {j : Nat} (other : j ≠ i) : (s.noted i token finish).reqs j = s.reqs j := update_of_ne other _ _

theorem noted_rows (inv : s.ReleaseInv c prompts steps numPages numRows) :
    Holdings (· < numRows) s.freeRows (fun j row => ((s.noted i token finish).reqs j).reqPoolIdx = some row) := by
  refine inv.rows.congr (fun j row => ?_)
  by_cases here : j = i
  · rw [here, noted_reqs]
  · rw [noted_other here]

theorem step_noted {room : Bool} : s.step c (.result i token finish room) =
    let result := (s.noted i token finish).offloadKvCache c i room
    if finish ∧ !result.1 then result.2.finalizeReleaseOnFinish c i else some result.2 := rfl

variable
  (untouched : ∀ st, s.offloadedState i = some st → st.prefillLen = (s.reqs i).originInputIds.length / c.pageSize * c.pageSize ∧ st.incLen = 0)
include untouched

theorem noted_state (token : Nat) (finish : Bool) :
    ((s.noted i token finish).stateOf c i).prefillLen = (s.reqs i).originInputIds.length / c.pageSize * c.pageSize ∧
      ((s.noted i token finish).stateOf c i).incLen = 0 := by
  unfold stateOf prefillOffloadedLen
  rw [show (s.noted i token finish).offloadedState = s.offloadedState from rfl, noted_reqs]
  cases state : s.offloadedState i with
  | none => exact ⟨rfl, rfl⟩
  | some st => exact untouched st state

theorem noted_aligned (token : Nat) (finish : Bool) : (s.noted i token finish).alignedLen c i =
    ((s.reqs i).originInputIds.length % c.pageSize + (s.reqs i).outputIds.length) / c.offloadStride * c.offloadStride := by
  have aligned := alignedLen_untouched (c := c) (s := s.noted i token finish) (i := i) (by rw [noted_reqs]; exact noted_state untouched token finish)
  rwa [noted_reqs, dropLast_concat] at aligned

theorem noted_early (token : Nat) (finish : Bool) :
    (s.noted i token finish).early c i = (s.reqs i).row.take ((s.noted i token finish).stateOf c i).prefillLen := by
  rw [early_untouched (noted_state untouched token finish).2, noted_reqs]

/-- A stride comes together only with the last token. -/
theorem last_of_stride (short : Short c (s.reqs i).originInputIds.length (steps i)) (early : (s.reqs i).outputIds.length ≤ steps i + 1)
    (timed : finish = decide (steps i + 1 ≤ (s.reqs i).outputIds.length)) (more : 0 < (s.noted i token finish).alignedLen c i) :
    finish = true ∧ (c.pageSize = 1 → ((s.noted i token finish).stateOf c i).prefillLen = 0) := by
  rw [noted_aligned untouched] at more
  have reached : c.offloadStride ≤ (s.reqs i).originInputIds.length % c.pageSize + (s.reqs i).outputIds.length := by
    by_contra less
    rw [Nat.div_eq_of_lt (by omega), Nat.zero_mul] at more
    omega
  obtain ⟨less, single⟩ := short
  refine ⟨by rw [timed]; exact decide_eq_true (by omega), fun one => ?_⟩
  rw [(noted_state untouched token finish).1, one, Nat.div_one, Nat.mul_one]
  rw [one, Nat.mod_one] at reached
  by_contra some_
  have := single one (Nat.pos_of_ne_zero some_)
  omega

variable (inv : s.ReleaseInv c prompts steps numPages numRows) (held : (s.reqs i).reqPoolIdx ≠ none) (copies : s.copiesOf i = [])
  (kept : (s.reqs i).kvCommittedFreed = false ∧ (s.reqs i).kvOverallocatedFreed = false) (blocks : Blocks c.pageSize (s.reqs i).row)
include inv held copies kept blocks

/-- `before` has been freed for the request in the same group. -/
theorem noted_finalize (token : Nat) (finish : Bool) (inGroup : s.freeGroup ≠ none) {after : OffloadManager} (before : List Nat)
    (reqs : after.reqs = (s.noted i token finish).reqs) (states : ∀ j, j ≠ i → after.offloadedState j = s.offloadedState j)
      (queue : after.ongoingOffload = s.ongoingOffload)
    (pages : after.freePages = (s.free c before).freePages) (group : after.freeGroup = (s.free c before).freeGroup)
    (rows : after.freeRows = s.freeRows) (state : after.stateOf c i = (s.noted i token finish).stateOf c i)
    (again : before ⊆ (s.reqs i).row) (once : c.pageSize = 1 → before = []) :
    ∃ s', after.finalizeReleaseOnFinish c i = some s' ∧ s'.ReleaseInv c prompts steps numPages numRows := by
  obtain ⟨idx, row⟩ := Option.ne_none_iff_exists'.mp held
  have req : after.reqs i = { s.reqs i with outputIds := (s.reqs i).outputIds ++ [token], finished := finish } := by rw [reqs, noted_reqs]
  obtain ⟨prefill, inc⟩ := noted_state untouched token finish
  rw [← state] at prefill inc
  generalize (s.reqs i).originInputIds.length / c.pageSize * c.pageSize = len at prefill
  rw [finalizeRelease_eq, early_untouched inc, inc, prefill, req, Nat.add_zero]
  obtain ⟨s', done⟩ : ∃ s', (after.free c ((s.reqs i).row.take len)).releaseFinishedReq c i len = some s' := by
    simp [releaseFinishedReq, req, kept, row]
  refine ⟨s', done, ?_⟩
  obtain ⟨idx', known, _, rfl⟩ := release_some done
  rw [free_reqs, req] at known
  obtain rfl : idx = idx' := Option.some.inj (row.symm.trans known)
  refine inv.release (before ++ (s.reqs i).row) row (fun one => ?_) (fun q => ?_) (fun j other => ⟨?_, ?_, ?_⟩) ?_ ?_ ?_ ?_ ?_ ?_
  · rw [once one]
    exact blocks.nodup one
  · rw [holdsPage_all copies, ← mem_freed_row, mem_freed, mem_freed, and_iff_right held]
    exact exists_congr (fun slot => and_congr_left' (mem_append.trans (or_iff_right_of_imp (fun mem => again mem))))
  · exact (update_of_ne other _ _).trans (by rw [free_reqs, reqs, noted_other other])
  · exact (update_of_ne other _ _).trans (states j other)
  · exact congrArg (List.filter _) queue
  · simp [req]
  · simp
  · simp [req]
  · exact (congrArg (List.filter _) queue).trans copies
  · have open_ : (s.free c before).freeGroup ≠ none := by simpa [free] using inGroup
    obtain ⟨pages', group'⟩ := free_congr c ((s.reqs i).row.take len) pages group
    obtain ⟨pages'', group''⟩ := free_congr c ((s.reqs i).row.drop len) pages' group'
    rw [free_free open_, take_append_drop, free_free inGroup] at pages'' group''
    rw [free_reqs, req]
    exact freeable_congr pages'' group''
  · simpa using rows

/-- Less than a stride has come together, and the request goes on. -/
theorem noted_waits (early : (s.reqs i).outputIds.length ≤ steps i)
    (slots : (s.reqs i).originInputIds.length + (s.reqs i).outputIds.length ≤ (s.reqs i).row.length) :
    ((s.noted i token false).setState i (some ((s.noted i token false).stateOf c i))).ReleaseInv c prompts steps numPages numRows := by
  have copies' : ((s.noted i token false).setState i (some ((s.noted i token false).stateOf c i))).copiesOf i = [] := copies
  refine inv.update i (fun j ne => ⟨noted_other ne, update_of_ne ne _ _, rfl⟩) ?_ ?_ ?_ (noted_rows inv)
  · show ((s.noted i token false).reqs i).originInputIds = _
    rw [noted_reqs]
  · have phase : Phase c (steps i) ((s.noted i token false).reqs i) (some ((s.noted i token false).stateOf c i)) [] := by
      rw [noted_reqs]
      refine .decoding (by simp) held rfl kept ?_ ?_ blocks (fun st known => ?_)
      · rw [length_append, length_singleton]
        omega
      · show (s.reqs i).originInputIds.length + ((s.reqs i).outputIds ++ [token]).length ≤ (s.reqs i).row.length + 1
        rw [length_append, length_singleton]
        omega
      · cases known
        exact noted_state untouched token false
    rw [copies']
    simpa [setState] using phase
  · refine freeable_holdings (s := s) rfl rfl (inv.pages.congr (fun j q => ?_))
    by_cases here : j = i
    · subst here
      rw [holdsPage_all copies, holdsPage_all copies']
      show ((s.noted _ token false).reqs _).reqPoolIdx ≠ none ∧
        (∃ t < ((s.noted _ token false).reqs _).row.length, ((s.noted _ token false).reqs _).row[t]! / c.pageSize = q) ↔ _
      rw [noted_reqs]
    · exact holdsPage_congr (noted_other here) rfl

/-- A copy starts with the last token. -/
theorem noted_copies (slots : (s.reqs i).originInputIds.length + (s.reqs i).outputIds.length ≤ (s.reqs i).row.length) {state : OffloadedState}
    {mid : OffloadManager} (last : mid = s.noted i token true) : OffloadManager.ReleaseInv c prompts steps numPages numRows
      { (mid.setState i (some state)).free c (mid.early c i) with ongoingOffload := mid.ongoingOffload ++
        [mid.nextCopy c i (mid.alignedLen c i)] } := by
  have req : mid.reqs i = { s.reqs i with outputIds := (s.reqs i).outputIds ++ [token], finished := true } := by rw [last, noted_reqs]
  have other : ∀ j, j ≠ i → mid.reqs j = s.reqs j := fun j ne => by rw [last, noted_other ne]
  have queue : mid.ongoingOffload = s.ongoingOffload := by rw [last]; rfl
  have early : mid.early c i = (s.reqs i).row.take (mid.stateOf c i).prefillLen := by rw [last, noted_early untouched]
  obtain ⟨pages, group⟩ := free_congr c (mid.early c i) (show mid.freePages = s.freePages by rw [last]; rfl)
    (show mid.freeGroup = s.freeGroup by rw [last]; rfl)
  have ⟨prefill, inc⟩ := noted_state untouched token true
  rw [← last] at prefill inc
  have inside : (mid.stateOf c i).prefillLen ≤ (s.reqs i).row.length := by
    rw [prefill]
    exact (Nat.div_mul_le_self _ _).trans (by omega)
  have whole : c.pageSize ∣ (mid.stateOf c i).prefillLen := by
    rw [prefill]
    exact Nat.dvd_mul_left _ _
  have start : (mid.nextCopy c i (mid.alignedLen c i)).start = (mid.stateOf c i).prefillLen := by
    show (mid.stateOf c i).prefillLen + (mid.stateOf c i).incLen = _
    rw [inc, Nat.add_zero]
  have listed : (mid.ongoingOffload ++ [mid.nextCopy c i (mid.alignedLen c i)]).filter (fun copy => decide (copy.req = i)) =
      [mid.nextCopy c i (mid.alignedLen c i)] := by
    rw [filter_append, queue, show s.ongoingOffload.filter _ = [] from copies]
    simp [nextCopy]
  have others {j : Nat} (ne : j ≠ i) : (mid.ongoingOffload ++ [mid.nextCopy c i (mid.alignedLen c i)]).filter (fun copy => decide (copy.req = j)) =
      s.copiesOf j := by
    simp [copiesOf, queue, nextCopy, Ne.symm ne]
  refine inv.update i (fun j ne => ⟨other j ne, ?_, others ne⟩) ?_ ?_ ?_ ?_
  · exact (update_of_ne ne _ _).trans (by rw [last]; rfl)
  · show (mid.reqs i).originInputIds = _
    rw [req]
  · show Phase c (steps i) (mid.reqs i) _ ((mid.ongoingOffload ++ [mid.nextCopy c i (mid.alignedLen c i)]).filter _)
    rw [listed, req]
    exact .copying (by simp) held rfl kept blocks (by rw [start]; exact whole) (by rw [start]; exact inside)
  · refine freeable_holdings (s := s.free c (mid.early c i)) pages group ?_
    rw [early]
    refine free_holdings (i := i) inv.pages (fun one => (blocks.nodup one).sublist (take_sublist _ _)) (fun q mem => ?_) (fun q => ?_)
      (fun j ne q => holdsPage_congr (other j ne) (others ne))
    · obtain ⟨t, lt, page⟩ := (mem_freed_take inside).mp mem
      exact (holdsPage_all copies).mpr ⟨held, t, by omega, page⟩
    · rw [holdsPage_all copies, and_assoc, ← blocks.rest whole inside, ← start]
      unfold HoldsPage freedUpTo copiesOf
      dsimp only
      rw [listed]
      show (mid.reqs i).reqPoolIdx ≠ none ∧ (∃ t, _ ≤ t ∧ t < (mid.reqs i).row.length ∧ (mid.reqs i).row[t]! / c.pageSize = q) ↔ _
      rw [req]
      rfl
  · subst last
    exact noted_rows inv

end

theorem result_release (inv : s.ReleaseInv c prompts steps numPages numRows) {token : Nat} {finish room : Bool}
    (short : Short c (prompts i).length (steps i)) (allowed : s.timedGuard c steps (.result i token finish room)) :
    ∃ s', s.step c (.result i token finish room) = some s' ∧ s'.ReleaseInv c prompts steps numPages numRows := by
  obtain ⟨⟨inGroup, row, running, slots⟩, timed⟩ := allowed
  rw [← inv.origin i] at short
  have phase := inv.phase i
  generalize copies : s.copiesOf i = listed at phase
  cases phase with
  | waiting _ none_ => exact absurd none_ row
  | released _ none_ => exact absurd none_ row
  | copying _ _ ended =>
    rw [running] at ended
    cases ended
  | decoding outputs _ _ kept early _ blocks untouched =>
    have effect := offload_offloading (c := c) (s := s.noted i token finish) i room
    rw [step_noted]
    generalize (s.noted i token finish).offloadKvCache c i room = result at effect
    obtain ⟨_, after⟩ := result
    dsimp only at effect ⊢
    cases effect with
    | idle _ empty =>
      rw [noted_reqs] at empty
      rcases empty with none_ | none_
      · simp at none_
      · have : (s.reqs i).row = [] := none_
        have some_ := length_pos_iff.mpr outputs
        rw [this, length_nil] at slots
        omega
    | short _ less =>
      cases finish with
      | true =>
        exact noted_finalize untouched inv row copies kept blocks token true inGroup [] rfl (fun j ne => update_of_ne ne _ _) rfl
          (by rw [free_nil]; rfl) (by rw [free_nil]; rfl) rfl stateOf_setState (nil_subset _) (fun _ => rfl)
      | false =>
        have later : ¬steps i + 1 ≤ (s.reqs i).outputIds.length := of_decide_eq_false timed.symm
        exact ⟨_, rfl, noted_waits untouched inv row copies kept blocks (by omega) slots⟩
    | refused more =>
      obtain ⟨rfl, noPrompt⟩ := last_of_stride untouched short early timed more
      refine noted_finalize untouched inv row copies kept blocks token true inGroup ((s.noted i token true).early c i) rfl
        (fun j ne => update_of_ne ne _ _) rfl rfl rfl rfl (stateOf_setState (s := s.noted i token true)) ?_ (fun one => ?_)
      · rw [noted_early untouched]
        exact take_subset _ _
      · rw [noted_early untouched, noPrompt one, take_zero]
    | issued more =>
      obtain ⟨rfl, _⟩ := last_of_stride untouched short early timed more
      exact ⟨_, if_neg (by simp), noted_copies untouched inv row copies kept blocks slots rfl⟩

theorem step_release (short : ∀ i, Short c (prompts i).length (steps i)) (inv : s.ReleaseInv c prompts steps numPages numRows) {op : OffloadOp}
    (allowed : s.timedGuard c steps op) : ∃ s', s.step c op = some s' ∧ s'.ReleaseInv c prompts steps numPages numRows := by
  cases op with
  | start i first => exact ⟨_, rfl, start_release inv allowed.1 rfl⟩
  | prepare i =>
    obtain ⟨s', done⟩ : ∃ s', s.step c (.prepare i) = some s' := by
      unfold step
      dsimp only
      split
      · exact ⟨_, rfl⟩
      · exact ⟨_, rfl⟩
    exact ⟨s', done, prepare_release inv allowed.1 done⟩
  | groupBegin =>
    refine ⟨_, rfl, { inv with pages := ?_ }⟩
    have same : ({ s with freeGroup := some [] } : OffloadManager).freeable c = s.freeable c := by
      rw [freeable, freeable, show s.freeGroup = none from allowed.1]
      rfl
    rw [same]
    exact inv.pages
  | result i token finish room => exact result_release inv (short i) allowed
  | groupEnd =>
    refine ⟨_, rfl, { inv with pages := ?_ }⟩
    have same : (({ s with freeGroup := none } : OffloadManager).free c (s.freeGroup.getD [])).freeable c = s.freeable c := freeable_closed rfl
    rw [same]
    exact inv.pages
  | ack => exact ack_release inv allowed.1

theorem init_release : (init prompts numPages numRows).ReleaseInv c prompts steps numPages numRows := by
  have free : (init prompts numPages numRows).freeable c = range' 1 numPages := freeable_closed rfl
  refine ⟨fun i => rfl, fun i => .waiting rfl rfl rfl ⟨rfl, rfl⟩ rfl, ⟨by rw [free]; exact nodup_range', ?_, ?_, fun q => ?_⟩,
    ⟨nodup_range, ?_, ?_, fun q => ?_⟩⟩
  · intro i q held
    exact absurd rfl held.1
  · intro i j q held
    exact absurd rfl held.1
  · rw [free, mem_range']
    constructor
    · rintro ⟨_, _⟩
      exact .inl ⟨q - 1, by omega, by omega⟩
    · rintro (⟨k, less, rfl⟩ | ⟨i, held⟩)
      · omega
      · exact absurd rfl held.1
  · exact nofun
  · exact nofun
  · rw [init, mem_range]
    constructor
    · exact .inl
    · rintro (less | ⟨i, held⟩)
      · exact less
      · cases held

theorem run_release (short : ∀ i, Short c (prompts i).length (steps i))
    (run : Runs.Run (fun s op => s.step c op) (timedGuard c steps) (init prompts numPages numRows) s) :
    s.ReleaseInv c prompts steps numPages numRows := by
  refine run.invariant _ init_release (fun s op s' inv allowed done => ?_)
  obtain ⟨_, done', kept⟩ := step_release short inv allowed
  obtain rfl := Option.some.inj (done.symm.trans done')
  exact kept

theorem ReleaseInv.drained (inv : s.ReleaseInv c prompts steps numPages numRows) (drained : s.Drained) (i : Nat) : (s.reqs i).reqPoolIdx = none := by
  by_contra held
  have phase := inv.phase i
  have none_ : s.copiesOf i = [] := by rw [copiesOf, drained.2.1, filter_nil]
  rw [none_] at phase
  cases phase with
  | waiting _ row => exact held row
  | decoding _ _ running =>
    rw [drained.1 i held] at running
    cases running
  | released _ row => exact held row

theorem releasesRight_of_short (short : ∀ i, Short c (prompts i).length (steps i)) : ReleasesRight c prompts steps := by
  intro _ _ s run
  have inv := run_release short run
  have nodup : s.freePages.Nodup := inv.pages.nodup.sublist (sublist_append_left _ _)
  refine ⟨⟨fun i row running t lt free => ?_, nodup⟩, fun op allowed => ?_, fun drained => ?_⟩
  · have none_ : s.copiesOf i = [] := by
      have phase := inv.phase i
      generalize s.copiesOf i = listed at phase
      cases phase with
      | copying _ _ ended =>
        rw [running] at ended
        cases ended
      | _ => rfl
    exact inv.pages.apart i _ ((holdsPage_all none_).mpr ⟨row, t, lt, rfl⟩) (mem_append_left _ free)
  · obtain ⟨_, done, _⟩ := step_release short inv allowed
    rw [done]
    exact Option.some_ne_none _
  · have gone := inv.drained drained
    refine ⟨fun page range => ?_, fun row range => ?_⟩
    · rcases (inv.pages.all page).mp range with free | ⟨i, held⟩
      · rwa [freeable_closed drained.2.2] at free
      · exact absurd (gone i) held.1
    · rcases (inv.rows.all row).mp range with free | ⟨i, held⟩
      · exact free
      · rw [gone i] at held
        cases held

/-- The request has `k` tokens after its first one, and `slots` after its prompt; nothing has been offloaded. -/
structure Decoded (c : OffloadConfig) (prompts : Nat → List Nat) (numPages i k slots : Nat) (s : OffloadManager) : Prop where
  origin : (s.reqs i).originInputIds = prompts i
  outputs : (s.reqs i).outputIds.length = k + 1
  row : (s.reqs i).row.length = (prompts i).length + slots
  held : (s.reqs i).reqPoolIdx ≠ none
  running : (s.reqs i).finished = false
  pages : numPages ≤ s.freePages.length + (s.reqs i).row.length
  closed : s.freeGroup = none
  queue : s.ongoingOffload = []
  untouched : ∀ st, s.offloadedState i = some st → st.prefillLen = (s.reqs i).originInputIds.length / c.pageSize * c.pageSize ∧ st.incLen = 0

section
variable {i k : Nat}

theorem decoded_start (rows : 0 < numRows) (enough : (prompts i).length ≤ numPages) : ∃ s,
    Runs.Run (fun s op => s.step c op) (timedGuard c steps) (init prompts numPages numRows) s ∧ s.Decoded c prompts numPages i 0 0 := by
  have few : pagesOf c.pageSize (prompts i).length ≤ (prompts i).length := by
    by_contra many
    have := (lt_pagesOf c.positive).mp (Nat.lt_of_not_ge many)
    have := Nat.le_mul_of_pos_right (prompts i).length c.positive
    omega
  have allowed : (init prompts numPages numRows).timedGuard c steps (.start i 0) := by
    refine ⟨⟨rfl, rfl, rfl, ?_, ?_⟩, trivial⟩
    · simp [init, rows.ne']
    · simp only [init, length_range']
      omega
  obtain ⟨_, _, list⟩ := exists_cons_of_ne_nil allowed.1.2.2.2.1
  refine ⟨_, .step .start allowed rfl, ⟨?_, ?_, ?_, ?_, ?_, ?_, rfl, rfl, nofun⟩⟩
  · simp [setReq, init]
  · simp [setReq]
  · simp [setReq, init]
  · simp [setReq, list]
  · simp [setReq, init]
  · simp only [setReq, update_self, length_layout, length_drop, init, length_range']
    omega

theorem decoded_prepare (steps : Nat → Nat) (decoded : s.Decoded c prompts numPages i k k) (enough : (prompts i).length + k < numPages) :
    ∃ s', s.timedGuard c steps (.prepare i) ∧ s.step c (.prepare i) = some s' ∧ s'.Decoded c prompts numPages i k (k + 1) := by
  have pages := decoded.pages
  have row := decoded.row
  have left : s.freePages ≠ [] := by
    intro none_
    rw [none_, length_nil] at pages
    omega
  have grown : ∀ slot pages, s.freePages.length ≤ pages.length + 1 →
      Decoded c prompts numPages i k (k + 1) { s.setReq i { s.reqs i with row := (s.reqs i).row ++ [slot] } with freePages := pages } := by
    intro slot pages' _
    have req : ({ s.setReq i { s.reqs i with row := (s.reqs i).row ++ [slot] } with freePages := pages' } : OffloadManager).reqs i =
        { s.reqs i with row := (s.reqs i).row ++ [slot] } := update_self _ _ _
    refine ⟨?_, ?_, ?_, ?_, ?_, ?_, decoded.closed, decoded.queue, ?_⟩ <;> rw [req]
    · exact decoded.origin
    · exact decoded.outputs
    · rw [length_append, row]
      rfl
    · exact decoded.held
    · exact decoded.running
    · rw [length_append, length_singleton]
      show numPages ≤ pages'.length + _
      omega
    · exact decoded.untouched
  by_cases full : (s.reqs i).row.length % c.pageSize = 0
  · refine ⟨_, ⟨⟨decoded.closed, decoded.held, decoded.running, fun _ => left⟩, trivial⟩, if_pos full, grown _ _ ?_⟩
    rw [length_tail]
    omega
  · exact ⟨_, ⟨⟨decoded.closed, decoded.held, decoded.running, fun _ => left⟩, trivial⟩, if_neg full, grown _ s.freePages (Nat.le_succ _)⟩

/-- The free group is open and the next token has come. -/
def answered (s : OffloadManager) (i : Nat) (finish : Bool) : OffloadManager :=
  { s with freeGroup := some [] }.setReq i { s.reqs i with outputIds := (s.reqs i).outputIds ++ [0], finished := finish }

theorem answered_reqs (s : OffloadManager) (i : Nat) (finish : Bool) :
    (s.answered i finish).reqs i = { s.reqs i with outputIds := (s.reqs i).outputIds ++ [0], finished := finish } :=
  update_self _ _ _

theorem decoded_state (decoded : s.Decoded c prompts numPages i k slots) (finish : Bool) :
    ((s.answered i finish).stateOf c i).prefillLen = (prompts i).length / c.pageSize * c.pageSize ∧ ((s.answered i finish).stateOf c i).incLen = 0 ∧
      (s.answered i finish).alignedLen c i = ((prompts i).length % c.pageSize + (k + 1)) / c.offloadStride * c.offloadStride := by
  have state := noted_state (s := { s with freeGroup := some [] }) decoded.untouched 0 finish
  have aligned := noted_aligned (s := { s with freeGroup := some [] }) decoded.untouched 0 finish
  rw [decoded.origin] at state aligned
  rw [decoded.outputs] at aligned
  exact ⟨state.1, state.2, aligned⟩

section
variable (run : Runs.Run (fun s op => s.step c op) (timedGuard c steps) (init prompts numPages numRows) s)
  (decoded : s.Decoded c prompts numPages i k (k + 1))
include run decoded

/-- The free group is opened and the result of the request processed. -/
theorem decoded_effect {finish : Bool} (ends : finish = decide (steps i + 1 ≤ k + 1)) (fits : Bool) : ∃ ok after,
    (∀ s', (if finish ∧ !ok then after.finalizeReleaseOnFinish c i else some after) = some s' →
      Runs.Run (fun s op => s.step c op) (timedGuard c steps) (init prompts numPages numRows) s') ∧
    (ReleasesRight c prompts steps → (if finish ∧ !ok then after.finalizeReleaseOnFinish c i else some after) ≠ none) ∧
    Offloading c (s.answered i finish) i fits ok after ∧ ((s.answered i finish).reqs i).outputIds ≠ [] ∧ (s.reqs i).row ≠ [] := by
  have opened : Runs.Run (fun s op => s.step c op) (timedGuard c steps) (init prompts numPages numRows) { s with freeGroup := some [] } :=
    run.step (a := .groupBegin) ⟨decoded.closed, trivial⟩ rfl
  have allowed : ({ s with freeGroup := some [] } : OffloadManager).timedGuard c steps (.result i 0 finish fits) := by
    refine ⟨⟨Option.some_ne_none _, decoded.held, decoded.running, ?_⟩, by rw [ends]; show _ = decide _; rw [decoded.outputs]⟩
    show (s.reqs i).originInputIds.length + (s.reqs i).outputIds.length ≤ (s.reqs i).row.length
    rw [decoded.origin, decoded.outputs, decoded.row]
  refine ⟨_, _, fun s' done => opened.step allowed done, fun right => (right _ _ _ opened).2.1 _ allowed, offload_offloading i fits, ?_, ?_⟩
  · rw [answered_reqs]
    simp
  · intro none_
    have row := decoded.row
    rw [none_, length_nil] at row
    omega

theorem decoded_result (early : k + 1 ≤ steps i) (less : (prompts i).length % c.pageSize + (k + 1) < c.offloadStride) :
    ∃ s', Runs.Run (fun s op => s.step c op) (timedGuard c steps) (init prompts numPages numRows) s' ∧
      s'.Decoded c prompts numPages i (k + 1) (k + 1) := by
  obtain ⟨prefill, inc, aligned⟩ := decoded_state decoded false
  rw [Nat.div_eq_of_lt less, Nat.zero_mul] at aligned
  obtain ⟨_, after, runs, _, effect, outputs, row⟩ := decoded_effect run decoded (decide_eq_false (by omega : ¬steps i + 1 ≤ k + 1)).symm false
  have run' := runs after (if_neg (by simp))
  cases effect with
  | idle _ empty =>
    rw [answered_reqs] at empty
    exact absurd empty (not_or.mpr ⟨by simp, row⟩)
  | refused more => exact absurd more (by omega)
  | short =>
    refine ⟨_, run'.step (a := .groupEnd) ⟨Option.some_ne_none _, trivial⟩ rfl, ?_⟩
    have req : ((s.answered i false).setState i (some ((s.answered i false).stateOf c i))).reqs i = _ := answered_reqs s i false
    refine ⟨?_, ?_, ?_, ?_, ?_, ?_, rfl, decoded.queue, ?_⟩ <;> rw [free_reqs, req]
    · exact decoded.origin
    · rw [length_append, decoded.outputs]
      rfl
    · exact decoded.row
    · exact decoded.held
    · refine decoded.pages.trans (Nat.add_le_add_right ?_ _)
      exact (sublist_append_left s.freePages _).length_le
    · intro st known
      have same : (s.answered i false).stateOf c i = st := by simpa [setState] using known
      rw [← same, decoded.origin]
      exact ⟨prefill, inc⟩

end

theorem decoded_run (enough : (prompts i).length + steps i < numPages) (rows : 0 < numRows) (early : k ≤ steps i)
    (less : (prompts i).length % c.pageSize + k < c.offloadStride) : ∃ s,
    Runs.Run (fun s op => s.step c op) (timedGuard c steps) (init prompts numPages numRows) s ∧ s.Decoded c prompts numPages i k k := by
  induction k with
  | zero => exact decoded_start rows (by omega)
  | succ k ih =>
    obtain ⟨s, run, decoded⟩ := ih (by omega) (by omega)
    obtain ⟨_, allowed, done, decoded'⟩ := decoded_prepare steps decoded (by omega)
    exact decoded_result (run.step allowed done) decoded' early less

theorem freed_first {len : Nat} (some_ : 0 < len) (filled : row ≠ []) : row[0]! / c.pageSize ∈ c.freed (row.take len) := by
  obtain ⟨slot, _, rfl⟩ := exists_cons_of_ne_nil filled
  obtain ⟨more, rfl⟩ : ∃ more, len = more + 1 := ⟨_, (Nat.succ_pred_eq_of_pos some_).symm⟩
  exact mem_freed.mpr ⟨slot, mem_cons_self, rfl⟩

section
variable (right : ReleasesRight c prompts steps)
  (run : Runs.Run (fun s op => s.step c op) (timedGuard c steps) (init prompts numPages numRows) s)
  (decoded : s.Decoded c prompts numPages i k (k + 1)) (reached : (prompts i).length % c.pageSize + (k + 1) = c.offloadStride)
include right run decoded reached

/-- The host has no room, and the prompt is freed with the stride: too early, or twice. -/
theorem prompt_freed (whole : c.pageSize ≤ (prompts i).length) (wrong : k + 1 ≤ steps i ∨ c.pageSize = 1) : False := by
  generalize ended : decide (steps i + 1 ≤ k + 1) = finish
  obtain ⟨prefill, inc, aligned⟩ := decoded_state decoded finish
  obtain ⟨_, after, runs, succeeds, effect, outputs, row⟩ := decoded_effect run decoded ended.symm false
  obtain ⟨s', done⟩ := Option.ne_none_iff_exists'.mp (succeeds right)
  have run' := runs s' done
  have pages : 0 < ((s.answered i finish).stateOf c i).prefillLen := by
    rw [prefill]
    exact Nat.mul_pos (Nat.div_pos whole c.positive) c.positive
  have slots : (s.answered i finish).early c i = (s.reqs i).row.take ((s.answered i finish).stateOf c i).prefillLen := by
    rw [early_untouched inc, answered_reqs]
  have listed := freed_first (c := c) pages row
  rw [← slots] at listed
  cases effect with
  | idle _ empty =>
    rw [answered_reqs] at empty
    exact not_or.mpr ⟨by simp, row⟩ empty
  | short _ less =>
    rw [aligned, reached, Nat.div_self c.stride_pos, Nat.one_mul] at less
    exact absurd less c.stride_pos.ne'
  | refused =>
    cases finish with
    | false =>
      obtain rfl := Option.some.inj done
      obtain ⟨⟨kept, _⟩, _⟩ := right _ _ _ (run'.step (a := .groupEnd) ⟨Option.some_ne_none _, trivial⟩ rfl)
      have req : (s.answered i false).reqs i = _ := answered_reqs s i false
      refine kept i ?_ ?_ 0 ?_ (mem_append_right _ ?_)
      · show ((s.answered i false).reqs i).reqPoolIdx ≠ none
        rw [req]
        exact decoded.held
      · show ((s.answered i false).reqs i).finished = false
        rw [req]
      · show 0 < ((s.answered i false).reqs i).row.length
        rw [req]
        exact length_pos_iff.mpr row
      · show ((s.answered i false).reqs i).row[0]! / c.pageSize ∈ c.freed ([] ++ (s.answered i false).early c i)
        rw [req]
        exact listed
    | true =>
      have one : c.pageSize = 1 := wrong.resolve_left (fun before => by have := of_decide_eq_true ended; omega)
      rw [if_pos (by simp), finalizeRelease_eq] at done
      obtain ⟨_, _, _, rfl⟩ := release_some done
      have again : ((s.answered i true).setState i (some ((s.answered i true).stateOf c i))).stateOf c i = (s.answered i true).stateOf c i :=
        stateOf_setState
      have twice : (((s.answered i true).setState i (some ((s.answered i true).stateOf c i))).free c ((s.answered i true).early c i)).early c i =
          (s.answered i true).early c i := by
        show (if _ ∧ _ then _ else _) = _
        rw [early_untouched inc]
        exact (early_untouched (c := c) (s := (s.answered i true).setState i (some ((s.answered i true).stateOf c i)))
          (by rw [again]; exact inc)).trans
          (by rw [again]; rfl)
      obtain ⟨⟨_, nodup⟩, _⟩ := right _ _ _ (run'.step (a := .groupEnd) ⟨Option.some_ne_none _, trivial⟩ rfl)
      rw [twice] at nodup
      have slots' := (nodup_append.mp nodup).2.1
      change (c.freed (([] ++ (s.answered i true).early c i) ++ (s.answered i true).early c i ++ _)).Nodup at slots'
      rw [OffloadConfig.freed, if_pos one, nil_append] at slots'
      obtain ⟨slot, mem, _⟩ := mem_freed.mp listed
      exact (nodup_append.mp (nodup_append.mp slots').1).2.2 slot mem slot mem rfl

/-- The host has room, and the slots of the stride are freed while the request goes on. -/
theorem stride_freed (small : (prompts i).length < c.pageSize) (early : k + 1 ≤ steps i) : False := by
  let mid := s.answered i false
  obtain ⟨prefill, inc, aligned⟩ := decoded_state decoded false
  rw [reached, Nat.div_self c.stride_pos, Nat.one_mul] at aligned
  rw [Nat.div_eq_of_lt small, Nat.zero_mul] at prefill
  obtain ⟨_, after, runs, _, effect, outputs, row⟩ := decoded_effect run decoded (decide_eq_false (by omega : ¬steps i + 1 ≤ k + 1)).symm true
  have run' := runs after (if_neg (by simp))
  have req : mid.reqs i = _ := answered_reqs s i false
  cases effect with
  | idle _ empty =>
    rw [answered_reqs] at empty
    exact not_or.mpr ⟨by simp, row⟩ empty
  | short _ less =>
    rw [aligned] at less
    exact absurd less c.stride_pos.ne'
  | issued =>
    have closed := run'.step (a := OffloadOp.groupEnd) (show timedGuard c steps _ .groupEnd from ⟨Option.some_ne_none _, trivial⟩) rfl
    have queue : mid.ongoingOffload ++ [mid.nextCopy c i (mid.alignedLen c i)] = [mid.nextCopy c i (mid.alignedLen c i)] := by
      rw [show mid.ongoingOffload = [] from decoded.queue, nil_append]
    have listed : mid.ongoingOffload ++ [mid.nextCopy c i (mid.alignedLen c i)] ≠ [] := by
      rw [queue]
      exact cons_ne_nil _ _
    obtain ⟨_, done'⟩ := Option.ne_none_iff_exists'.mp ((right _ _ _ closed).2.1 .ack ⟨⟨rfl, listed⟩, trivial⟩)
    obtain ⟨⟨kept, _⟩, _⟩ := right _ _ _ (closed.step (a := .ack) ⟨⟨rfl, listed⟩, trivial⟩ done')
    cases progress_acknowledged queue done' with
    | finished ended =>
      have ended' : (mid.reqs i).finished = true := ended
      rw [req] at ended'
      cases ended'
    | running =>
      refine kept i ?_ ?_ 0 ?_ (mem_append_right _ ?_)
      · show (mid.reqs i).reqPoolIdx ≠ none
        rw [req]
        exact decoded.held
      · show (mid.reqs i).finished = false
        rw [req]
      · show 0 < (mid.reqs i).row.length
        rw [req]
        exact length_pos_iff.mpr row
      · have start : (mid.nextCopy c i (mid.alignedLen c i)).start = 0 := by
          show (mid.stateOf c i).prefillLen + (mid.stateOf c i).incLen = 0
          rw [prefill, inc]
        have stop : (mid.nextCopy c i (mid.alignedLen c i)).stop = c.offloadStride := by
          show (mid.stateOf c i).prefillLen + (mid.stateOf c i).incLen + mid.alignedLen c i = _
          rw [prefill, inc, aligned, Nat.zero_add]
        show (mid.reqs i).row[0]! / c.pageSize ∈ c.freed (((mid.reqs i).row.drop _).take _)
        rw [req, start, stop, drop_zero, Nat.sub_zero]
        exact freed_first c.stride_pos row

end

end

/-- Offloading releases right exactly when no stride comes together before a request's last token, nor with it where the prompt would be freed
twice. -/
theorem releases_right_iff (c : OffloadConfig) (prompts : Nat → List Nat) (steps : Nat → Nat) :
    ReleasesRight c prompts steps ↔ ∀ i, Short c (prompts i).length (steps i) := by
  refine ⟨fun right i => ?_, releasesRight_of_short⟩
  by_contra long
  have inPage := Nat.mod_lt (prompts i).length c.positive
  have stride := c.pageSize_le_stride
  obtain ⟨k, reached⟩ : ∃ k, (prompts i).length % c.pageSize + (k + 1) = c.offloadStride :=
    ⟨c.offloadStride - (prompts i).length % c.pageSize - 1, by omega⟩
  have cases_ : k + 1 ≤ steps i ∨ c.pageSize = 1 ∧ 0 < (prompts i).length ∧ k ≤ steps i := by
    unfold Short at long
    by_cases before : (prompts i).length % c.pageSize + steps i < c.offloadStride
    · obtain ⟨one, some_, last⟩ : c.pageSize = 1 ∧ 0 < (prompts i).length ∧ ¬steps i + 1 < c.offloadStride := by
        by_contra none_
        exact long ⟨before, fun one some_ => by_contra (fun last => none_ ⟨one, some_, last⟩)⟩
      rw [one, Nat.mod_one] at reached
      exact .inr ⟨one, some_, by omega⟩
    · exact .inl (by omega)
  obtain ⟨s, run, decoded⟩ := decoded_run (c := c) (Nat.lt_succ_self ((prompts i).length + steps i)) Nat.one_pos
    (show k ≤ steps i by omega) (by omega)
  obtain ⟨_, allowed, done, decoded'⟩ := decoded_prepare steps decoded (by omega)
  have run' := run.step allowed done
  by_cases small : (prompts i).length < c.pageSize
  · exact stride_freed right run' decoded' reached small (cases_.resolve_right (fun ⟨one, some_, _⟩ => by omega))
  · exact prompt_freed right run' decoded' reached (by omega) (cases_.imp_right And.left)

def pagesOfOne : OffloadConfig := { pageSize := 1, envStride := none, hasher := ⟨fun _ _ => 0, fun _ => 0⟩, positive := Nat.one_pos }

theorem run_pagesOfOne (ops : List OffloadOp) {s : OffloadManager}
    (done : Runs.attempt (fun s op => step pagesOfOne s op) (guard pagesOfOne) (init (fun _ => [5]) 4 1) ops = some s) :
    Runs.Run (fun s op => step pagesOfOne s op) (guard pagesOfOne) (init (fun _ => [5]) 4 1) s :=
  .of_attempt .start done

/-- The slot of the prompt is free while its request goes on decoding. -/
theorem prompt_slot_freed : (∃ s, Runs.Run (fun s op => step pagesOfOne s op) (guard pagesOfOne) (init (fun _ => [5]) 4 1) s ∧
      (s.reqs 0).reqPoolIdx = some 0 ∧ (s.reqs 0).finished = false ∧ (s.reqs 0).row = [1, 2] ∧ s.freePages = [3, 4, 1]) ∧
    ∃ s, Runs.Run (fun s op => step pagesOfOne s op) (guard pagesOfOne) (init (fun _ => [5]) 4 1) s ∧ s.freePages = [4, 1, 1, 1, 2, 3] :=
  ⟨⟨_, run_pagesOfOne [.start 0 6, .prepare 0, .groupBegin, .result 0 7 false false, .groupEnd] rfl, rfl, rfl, rfl, rfl⟩,
    _, run_pagesOfOne [.start 0 6, .prepare 0, .groupBegin, .result 0 7 false false, .groupEnd, .prepare 0, .groupBegin, .result 0 8 true false,
      .groupEnd] rfl, rfl⟩

end OffloadManager

end TriaxialKV.Disagg
