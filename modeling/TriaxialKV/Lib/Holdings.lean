/-!
# Holders of a pool

The members of `space` lie in a free list or with one holder. Taking from the free list and giving back
keep it so.
-/

namespace TriaxialKV

structure Holdings {ι κ : Type} (space : κ → Prop) (free : List κ) (own : ι → κ → Prop) : Prop where
  nodup : free.Nodup
  apart : ∀ i q, own i q → q ∉ free
  single : ∀ i j q, own i q → own j q → i = j
  all : ∀ q, space q ↔ q ∈ free ∨ ∃ i, own i q

namespace Holdings
variable {ι κ : Type} {space : κ → Prop} {free rest back : List κ} {own own' : ι → κ → Prop} {i : ι}

theorem take (taken : List κ) (held : Holdings space (taken ++ rest) own) (here : ∀ q, own' i q ↔ own i q ∨ q ∈ taken)
    (others : ∀ j, j ≠ i → ∀ q, own' j q ↔ own j q) : Holdings space rest own' := by
  obtain ⟨_, nodup, fresh⟩ := List.nodup_append.mp held.nodup
  have cases : ∀ j q, own' j q → own j q ∨ j = i ∧ q ∈ taken := by
    intro j q mine
    by_cases same : j = i
    · subst same
      exact ((here q).mp mine).imp_right (⟨rfl, ·⟩)
    · exact .inl ((others j same q).mp mine)
  have keeps : ∀ j q, own j q → own' j q := by
    intro j q mine
    by_cases same : j = i
    · subst same
      exact (here q).mpr (.inl mine)
    · exact (others j same q).mpr mine
  refine ⟨nodup, fun j q mine lt => ?_, fun j k q mine theirs => ?_, fun q => ?_⟩
  · rcases cases j q mine with old | ⟨_, new⟩
    · exact held.apart j q old (List.mem_append_right _ lt)
    · exact fresh q new q lt rfl
  · rcases cases j q mine with old | ⟨rfl, new⟩ <;> rcases cases k q theirs with old' | ⟨rfl, new'⟩
    · exact held.single j k q old old'
    · exact absurd (List.mem_append_left _ new') (held.apart j q old)
    · exact absurd (List.mem_append_left _ new) (held.apart k q old')
    · rfl
  · rw [held.all q, List.mem_append]
    constructor
    · rintro ((new | old) | ⟨j, mine⟩)
      · exact .inr ⟨i, (here q).mpr (.inr new)⟩
      · exact .inl old
      · exact .inr ⟨j, keeps j q mine⟩
    · rintro (old | ⟨j, mine⟩)
      · exact .inl (.inr old)
      · rcases cases j q mine with old | ⟨_, new⟩
        · exact .inr ⟨j, old⟩
        · exact .inl (.inl new)

theorem give {free' : List κ} (held : Holdings space free own) (nodup : free'.Nodup) (mem : ∀ q, q ∈ free' ↔ q ∈ free ∨ q ∈ back)
    (mine : ∀ q ∈ back, own i q) (left : ∀ q, own' i q ↔ own i q ∧ q ∉ back) (others : ∀ j, j ≠ i → ∀ q, own' j q ↔ own j q) :
    Holdings space free' own' := by
  have keeps : ∀ j q, own' j q → own j q ∧ q ∉ back := by
    intro j q owns
    by_cases same : j = i
    · subst same
      exact (left q).mp owns
    · have old := (others j same q).mp owns
      exact ⟨old, fun given => same (held.single j i q old (mine q given))⟩
  refine ⟨nodup, fun j q owns lt => ?_, fun j k q owns theirs => ?_, fun q => ?_⟩
  · obtain ⟨old, kept⟩ := keeps j q owns
    exact ((mem q).mp lt).elim (held.apart j q old) kept
  · exact held.single j k q (keeps j q owns).1 (keeps k q theirs).1
  · rw [held.all q, mem]
    constructor
    · rintro (old | ⟨j, owns⟩)
      · exact .inl (.inl old)
      · by_cases same : j = i
        · subst same
          by_cases given : q ∈ back
          · exact .inl (.inr given)
          · exact .inr ⟨j, (left q).mpr ⟨owns, given⟩⟩
        · exact .inr ⟨j, (others j same q).mpr owns⟩
    · rintro ((old | new) | ⟨j, owns⟩)
      · exact .inl old
      · exact .inr ⟨i, mine q new⟩
      · exact .inr ⟨j, (keeps j q owns).1⟩

theorem release (held : Holdings space free own) (nodup : back.Nodup) (exact_ : ∀ q, q ∈ back ↔ own i q) (gone : ∀ q, ¬own' i q)
    (others : ∀ j, j ≠ i → ∀ q, own' j q ↔ own j q) : Holdings space (free ++ back) own' := by
  refine held.give ?_ (fun q => List.mem_append) (fun q => (exact_ q).mp) (fun q => ?_) others
  · refine List.nodup_append.mpr ⟨held.nodup, nodup, ?_⟩
    rintro q old _ new rfl
    exact held.apart i q ((exact_ q).mp new) old
  · rw [exact_]
    exact iff_of_false (gone q) (fun both => both.2 both.1)

theorem congr (held : Holdings space free own) (same : ∀ j q, own' j q ↔ own j q) : Holdings space free own' := by
  have eq : own' = own := funext (fun j => funext (fun q => propext (same j q)))
  rwa [eq]

end Holdings

end TriaxialKV
