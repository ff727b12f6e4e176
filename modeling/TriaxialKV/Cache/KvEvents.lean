import TriaxialKV.Cache.PrefixCache
import TriaxialKV.Cache.BlockHashes

/-! # Events against the tree -/

namespace TriaxialKV
open List RadixCache BlockHash Function

variable {back front slots tokens : List Nat} {c : RadixCache} {extraKey : Option String} {gone : List Int} {id len : Nat} {x : TreeNode}

def RadixCache.Holds (c : RadixCache) (extraKey : Option String) (tokens : List Nat) : Prop := tokens ≠ [] ∧ ∃ slots, Below c extraKey 0 tokens slots

theorem RadixCache.Below.bare (below : Below c extraKey id tokens slots) : Below c.bare extraKey id tokens tokens := by
  induction below with
  | here => exact .here
  | part mem space whole le => exact .part (n := TreeNode.bare _) (mem_map_of_mem mem) space whole le
  | full mem space _ ih => exact .full (n := TreeNode.bare _) (mem_map_of_mem mem) space ih

theorem RadixCache.Below.of_bare (below : Below c.bare extraKey id tokens slots) : ∃ slots', Below c extraKey id tokens slots' := by
  induction below with
  | here => exact ⟨[], .here⟩
  | part listed space whole le =>
    obtain ⟨n, mem, rfl⟩ := mem_map.mp listed
    exact ⟨_, .part (n := n) mem space whole le⟩
  | full listed space _ ih =>
    obtain ⟨n, mem, rfl⟩ := mem_map.mp listed
    obtain ⟨slots', rest⟩ := ih
    exact ⟨_, .full (n := n) mem space rest⟩

theorem RadixCache.holds_bare : c.bare.Holds extraKey tokens ↔ c.Holds extraKey tokens :=
  and_congr_right (fun _ => ⟨fun ⟨_, below⟩ => below.of_bare, fun ⟨_, below⟩ => ⟨_, below.bare⟩⟩)

namespace RadixTree
variable {hasher : BlockHash} {pageSize : Nat} {t t' t'' : RadixTree}

structure Hashed (hasher : BlockHash) (pageSize : Nat) (t : RadixTree) : Prop where
  enabled : t.enableKvCacheEvents = true
  uses : t.hasher = hasher
  size : t.pageSize = pageSize
  aligned : t.Aligned
  digests : ∀ n ∈ t.nodes, ∃ tokens slots, Path t.toRadixCache n.key.extraKey n.parent tokens slots ∧
    t.hashValue n.id = some (hasher.chain (hasher.digest pageSize tokens) (keyPages n.key.tokenIds pageSize))

namespace Hashed
section
variable (hashed : Hashed hasher pageSize t)
include hashed

theorem lastHash (pos : 0 < pageSize) (wf : t.Wf)
    (path : Path t.toRadixCache extraKey id tokens slots) : t.lastHash id = hasher.digest pageSize tokens := by
  cases path with
  | root =>
    rw [BlockHash.digest, (keyPages_eq_nil pos).mpr rfl]
    rfl
  | @node n front back mem space path =>
    obtain ⟨_, _, path', digests⟩ := hashed.digests n mem
    rw [space] at path'
    obtain ⟨rfl, rfl⟩ := path.unique wf path'
    have whole := hashed.size ▸ path.whole hashed.aligned
    have nonempty : keyPages n.key.tokenIds pageSize ≠ [] := fun none => (wf.keys n mem).2 ((keyPages_eq_nil pos).mp none)
    unfold RadixTree.lastHash
    rw [if_neg (wf.root n mem), digests, Option.bind_some, digest_append pos whole]
    obtain ⟨_, _, split⟩ := (eq_nil_or_concat (keyPages n.key.tokenIds pageSize)).resolve_left nonempty
    rw [split, concat_eq_append, chain_append, digest_concat, getLast?_append]
    rfl

theorem retouch (id : Nat) {f : TreeNode → TreeNode} (keeps : ∀ n, core (f n) = core n) : Hashed hasher pageSize (t.modifyNode id f) := by
  have same : Retouch t.toRadixCache (t.modifyNode id f).toRadixCache := .modifyNode _ _ keeps
  refine ⟨hashed.enabled, hashed.uses, hashed.size, same.symm.embeds.aligned hashed.aligned, fun n mem => ?_⟩
  obtain ⟨m, lt, eq⟩ := same.mem mem
  obtain ⟨tokens, slots, path, digests⟩ := hashed.digests m lt
  rw [eq.key, eq.id] at digests
  rw [eq.key, eq.parent] at path
  exact ⟨tokens, slots, path.mono same.embeds, digests⟩

theorem split (pos : 0 < pageSize) (wf : t.Wf) (clock : Nat → Int) {child : TreeNode} {splitLen : Nat}
    (splits : t.Splits child splitLen) : Hashed hasher pageSize (t.splitNode clock child splitLen) := by
  let upper := child.key.tokenIds.take splitLen
  refine ⟨hashed.enabled, hashed.uses, hashed.size, splitNode_aligned clock wf hashed.aligned splits, fun n mem => ?_⟩
  have lt := splits.inside
  have pages : pageSize ∣ splitLen := hashed.size ▸ splits.whole
  obtain ⟨tokens, slots, path, digests⟩ := hashed.digests child splits.member
  have whole := hashed.size ▸ path.whole hashed.aligned
  have upperSize : upper.length = splitLen := by
    rw [length_take]
    omega
  -- the digests of the child are cut where its key is
  have cut : hasher.chain (hasher.digest pageSize tokens) (keyPages child.key.tokenIds pageSize) =
      hasher.chain (hasher.digest pageSize tokens) (keyPages upper pageSize) ++
        hasher.chain (hasher.digest pageSize (tokens ++ child.key.tokenIds.take splitLen))
          (keyPages (child.key.tokenIds.drop splitLen) pageSize) := by
    rw [digest_append pos whole, ← chain_append, ← keyPages_append pos (by rwa [upperSize]), take_append_drop]
  have count : (hasher.chain (hasher.digest pageSize tokens) (keyPages upper pageSize)).length =
      if t.pageSize = 1 then splitLen else splitLen / t.pageSize := by
    rw [chain_length, keyPages_length pos (by rwa [upperSize]), upperSize, hashed.size]
    split
    · next one => rw [one, Nat.div_one]
    · rfl
  have fresh : t.freshId ≠ child.id := (id_ne_freshId splits.member).symm
  rcases (mem_splitNode clock splitLen wf.ids splits.member n).mp mem with rfl | rfl | ⟨old, other⟩
  · refine ⟨tokens, slots, path.split clock wf splits.member, ?_⟩
    change Function.update (Function.update _ _ _) _ _ t.freshId = _
    rw [update_of_ne fresh, update_self, digests, splitNodeHashValue]
    rw [← count, cut, take_left]
    rfl
  · refine ⟨_, _, path.upper clock wf splits.member rfl, ?_⟩
    change Function.update (Function.update _ _ _) _ _ child.id = _
    rw [update_self, digests, splitNodeHashValue]
    rw [← count, cut, drop_left]
    rfl
  · obtain ⟨tokens', slots', path', digests'⟩ := hashed.digests n old
    refine ⟨tokens', slots', path'.split clock wf splits.member, ?_⟩
    change Function.update (Function.update _ _ _) _ _ n.id = _
    rw [update_of_ne other, update_of_ne (id_ne_freshId old), digests']

end

theorem walkRule (pos : 0 < pageSize) (clock : Nat → Int) (events : List KvEvent) :
    WalkRule clock (fun t => Hashed hasher pageSize t ∧ t.kvEventQueue = events) :=
  ⟨fun id _ keeps before => ⟨before.1.retouch id keeps, before.2⟩, fun wf splits before => ⟨before.1.split pos wf clock splits, before.2⟩⟩

theorem embeds (hashed : Hashed hasher pageSize t) (there : Embeds t.toRadixCache c) (back : Embeds c t.toRadixCache) :
    Hashed hasher pageSize { t with toRadixCache := c } := by
  refine ⟨hashed.enabled, hashed.uses, there.pageSize.trans hashed.size, back.aligned hashed.aligned, fun n mem => ?_⟩
  obtain ⟨m, lt, same, parent, key, _⟩ := back.nodes n mem
  obtain ⟨tokens, slots, path, digests⟩ := hashed.digests m lt
  rw [key, parent] at path
  rw [key, same] at digests
  exact ⟨tokens, slots, path.mono there, digests⟩

end Hashed

section
variable {leaf : TreeNode} {prior : Option Nat}

theorem addLeaf_records (enabled : t.enableKvCacheEvents = true) (fits : t.Fits leaf) (last : t.lastHash leaf.parent = prior) :
    let digests := t.hasher.chain prior (keyPages leaf.key.tokenIds t.pageSize)
    (t.addLeaf leaf).enableKvCacheEvents = true ∧ (t.addLeaf leaf).hasher = t.hasher ∧
      (t.addLeaf leaf).hashValue = Function.update t.hashValue leaf.id (some digests) ∧
      (t.addLeaf leaf).kvEventQueue =
        t.kvEventQueue ++ storeEvents t.hasher (prior.map t.hasher.hashStrToInt64) (keyPages leaf.key.tokenIds t.pageSize) digests := by
  have above {value : Option (List Nat)} {c : RadixCache} :
      ({ t with toRadixCache := c, hashValue := Function.update t.hashValue leaf.id value } : RadixTree).lastHash leaf.parent = prior := by
    unfold lastHash at last ⊢
    dsimp only
    rwa [update_of_ne fits.parent_ne]
  unfold addLeaf recordStoreEvent
  rw [if_pos enabled]
  unfold ensureHashValue
  rw [if_pos (update_self ..), update_idem]
  dsimp only
  rw [update_self, computeNodeHashValues, above, above, addLeaf_pageSize]
  exact ⟨enabled, rfl, rfl, rfl⟩

theorem Hashed.addLeaf (hashed : Hashed hasher pageSize t) (pos : 0 < pageSize) (wf : t.Wf) (fits : t.Fits leaf)
    (whole : pageSize ∣ leaf.key.tokenIds.length) (path : Path t.toRadixCache leaf.key.extraKey leaf.parent front back) :
    Hashed hasher pageSize (t.addLeaf leaf) ∧ (t.addLeaf leaf).kvEventQueue =
      t.kvEventQueue ++ storeEvents hasher (hasher.blockHash pageSize front) (keyPages leaf.key.tokenIds pageSize)
        (hasher.chain (hasher.digest pageSize front) (keyPages leaf.key.tokenIds pageSize)) := by
  obtain ⟨enabled, uses, hashValue, queue⟩ := addLeaf_records hashed.enabled fits (hashed.lastHash pos wf path)
  rw [hashed.uses, hashed.size] at hashValue queue
  have embeds := embeds_addLeaf t.toRadixCache leaf
  refine ⟨⟨enabled, uses.trans hashed.uses, ?_, fun n mem => ?_, fun n mem => ?_⟩, queue⟩
  · rw [addLeaf_cache, addLeaf_pageSize]
    exact hashed.size
  · rw [addLeaf_cache, addLeaf_nodes] at mem
    rw [addLeaf_cache, addLeaf_pageSize]
    rcases mem_append.mp mem with old | new
    · exact hashed.aligned n old
    · rw [mem_singleton.mp new, hashed.size]
      exact whole
  · rw [hashValue]
    rw [addLeaf_cache, addLeaf_nodes] at mem
    rw [addLeaf_cache]
    rcases mem_append.mp mem with old | new
    · obtain ⟨tokens, slots, path', digests⟩ := hashed.digests n old
      refine ⟨tokens, slots, path'.mono embeds, ?_⟩
      rw [update_of_ne (by rw [fits.fresh]; exact id_ne_freshId old), digests]
    · obtain rfl := mem_singleton.mp new
      exact ⟨front, back, path.mono embeds, update_self ..⟩

theorem Hashed.evictLeaf (hashed : Hashed hasher pageSize t) (wf : t.Wf) (leaf : t.IsLeaf x)
    (path : Path t.toRadixCache x.key.extraKey x.parent front back) :
    Hashed hasher pageSize (t.evictLeaf x) ∧ (t.evictLeaf x).kvEventQueue = t.kvEventQueue ++
      ((hasher.chain (hasher.digest pageSize front) (keyPages x.key.tokenIds pageSize)).map hasher.hashStrToInt64).map .blockRemoved := by
  obtain ⟨_, _, path', digests⟩ := hashed.digests x leaf.member
  obtain ⟨rfl, rfl⟩ := path.unique wf path'
  have records : t.evictLeaf x = { t with
      toRadixCache := t.toRadixCache.deleteLeaf x
      kvEventQueue := t.kvEventQueue ++
        ((hasher.chain (hasher.digest pageSize front) (keyPages x.key.tokenIds pageSize)).map hasher.hashStrToInt64).map .blockRemoved } := by
    unfold RadixTree.evictLeaf recordRemoveEvent ensureHashValue
    dsimp only
    rw [if_pos hashed.enabled, if_neg (by rw [digests]; exact Option.some_ne_none _)]
    rw [digests, Option.getD_some, delete_pageSize, hashed.size, take_of_length_le (by rw [chain_length]), hashed.uses, map_map]
    rfl
  rw [records]
  refine ⟨⟨hashed.enabled, hashed.uses, (delete_pageSize _ x).trans hashed.size, (delete_embeds _ x).aligned hashed.aligned,
    fun n mem => ?_⟩, rfl⟩
  obtain ⟨lt, _⟩ := mem_deleteLeaf mem
  obtain ⟨tokens, slots, path', digests'⟩ := hashed.digests n lt
  exact ⟨tokens, slots, path'.deleteLeaf leaf (children_eq_nil.mp leaf.last n lt), digests'⟩

end

/-! ### Events against the pages -/

def Exact (hasher : BlockHash) (pageSize : Nat) (t : RadixTree) : Prop :=
  ∀ hash, hash ∈ replay t.kvEventQueue ↔ ∃ extraKey tokens, t.Holds extraKey tokens ∧ hasher.blockHash pageSize tokens = some hash

structure Announces (hasher : BlockHash) (pageSize : Nat) (t t' : RadixTree) (new : List KvEvent) : Prop where
  queue : t'.kvEventQueue = t.kvEventQueue ++ new
  stored : ∀ event ∈ new, ∃ hash extraKey before page, event = .blockStored hash (hasher.blockHash pageSize before) page pageSize ∧
    page.length = pageSize ∧ hasher.blockHash pageSize (before ++ page) = some hash ∧ t'.Holds extraKey (before ++ page)
  kept : ∀ extraKey tokens, t.Holds extraKey tokens → t'.Holds extraKey tokens
  added : ∀ extraKey tokens, t'.Holds extraKey tokens → t.Holds extraKey tokens ∨
    ∃ hash parent page size, hasher.blockHash pageSize tokens = some hash ∧ .blockStored hash parent page size ∈ new

theorem Announces.quiet (queue : t'.kvEventQueue = t.kvEventQueue) (same : ∀ extraKey tokens, t'.Holds extraKey tokens ↔ t.Holds extraKey tokens) :
    Announces hasher pageSize t t' [] :=
  ⟨by rw [queue, append_nil], fun _ none => (by cases none), fun k p => (same k p).mpr, fun k p held => .inl ((same k p).mp held)⟩

theorem Announces.exact {new : List KvEvent} (announces : Announces hasher pageSize t t' new) (exact : Exact hasher pageSize t) :
    Exact hasher pageSize t' := by
  intro hash
  rw [announces.queue, replay_append_stored (fun event mem => ?_), exact hash]
  · constructor
    · rintro (⟨extraKey, tokens, held, same⟩ | ⟨parent, page, size, mem⟩)
      · exact ⟨extraKey, tokens, announces.kept _ _ held, same⟩
      · obtain ⟨hash', extraKey, before, _, eq, _, same, held⟩ := announces.stored _ mem
        cases eq
        exact ⟨extraKey, _, held, same⟩
    · rintro ⟨extraKey, tokens, held, same⟩
      rcases announces.added _ _ held with old | ⟨hash', parent, page, size, same', mem⟩
      · exact .inl ⟨extraKey, tokens, old, same⟩
      · obtain rfl := Option.some.inj (same.symm.trans same')
        exact .inr ⟨parent, page, size, mem⟩
  · obtain ⟨hash', _, before, page, eq, _⟩ := announces.stored _ mem
    exact ⟨hash', _, page, _, eq⟩

structure Withdraws (hasher : BlockHash) (pageSize : Nat) (t t' : RadixTree) (gone : List Int) : Prop where
  queue : t'.kvEventQueue = t.kvEventQueue ++ gone.map .blockRemoved
  fewer : ∀ extraKey tokens, t'.Holds extraKey tokens → t.Holds extraKey tokens
  removed : ∀ hash ∈ gone, ∃ extraKey tokens, t.Holds extraKey tokens ∧ ¬ t'.Holds extraKey tokens ∧ hasher.blockHash pageSize tokens = some hash
  lost : ∀ extraKey tokens, t.Holds extraKey tokens → ¬ t'.Holds extraKey tokens → ∃ hash ∈ gone, hasher.blockHash pageSize tokens = some hash

theorem Withdraws.refl (hasher : BlockHash) (pageSize : Nat) (t : RadixTree) : Withdraws hasher pageSize t t [] :=
  ⟨by rw [map_nil, append_nil], fun _ _ held => held, fun _ none => (by cases none), fun _ _ held gone => absurd held gone⟩

theorem Withdraws.trans {gone' : List Int} (first : Withdraws hasher pageSize t t' gone) (second : Withdraws hasher pageSize t' t'' gone') :
    Withdraws hasher pageSize t t'' (gone ++ gone') := by
  refine ⟨by rw [second.queue, first.queue, map_append, append_assoc], fun k p held => first.fewer k p (second.fewer k p held),
    fun hash mem => ?_, fun k p held absent => ?_⟩
  · rcases mem_append.mp mem with early | late
    · obtain ⟨k, p, held, absent, same⟩ := first.removed hash early
      exact ⟨k, p, held, fun later => absent (second.fewer k p later), same⟩
    · obtain ⟨k, p, held, absent, same⟩ := second.removed hash late
      exact ⟨k, p, first.fewer k p held, absent, same⟩
  · by_cases between : t'.Holds k p
    · obtain ⟨hash, mem, same⟩ := second.lost k p between absent
      exact ⟨hash, mem_append_right _ mem, same⟩
    · obtain ⟨hash, mem, same⟩ := first.lost k p held between
      exact ⟨hash, mem_append_left _ mem, same⟩

theorem Withdraws.exact_iff (withdraws : Withdraws hasher pageSize t t' gone) (injective : hasher.Injective) (pos : 0 < pageSize)
    (exact : Exact hasher pageSize t) :
    Exact hasher pageSize t' ↔ ∀ extraKey extraKey' tokens, t.Holds extraKey tokens → ¬ t'.Holds extraKey tokens → ¬ t'.Holds extraKey' tokens := by
  have replayed (hash : Int) : hash ∈ replay t'.kvEventQueue ↔ hash ∈ replay t.kvEventQueue ∧ hash ∉ gone := by
    rw [withdraws.queue, replay_append_removed]
  constructor
  · intro exact' k k' tokens held absent still
    obtain ⟨hash, mem, same⟩ := withdraws.lost k tokens held absent
    exact ((replayed hash).mp ((exact' hash).mpr ⟨k', tokens, still, same⟩)).2 mem
  · intro apart hash
    rw [replayed, exact hash]
    constructor
    · rintro ⟨⟨k, tokens, held, same⟩, kept⟩
      refine ⟨k, tokens, ?_, same⟩
      by_contra absent
      obtain ⟨_, mem, same'⟩ := withdraws.lost k tokens held absent
      obtain rfl := Option.some.inj (same.symm.trans same')
      exact kept mem
    · rintro ⟨k', tokens, still, same⟩
      refine ⟨⟨k', tokens, withdraws.fewer _ _ still, same⟩, fun mem => ?_⟩
      obtain ⟨k, _, held, absent, same'⟩ := withdraws.removed hash mem
      obtain rfl := injective.blockHash pos same same'
      exact apart k k' tokens held absent still

/-! ### What the operations do -/

section
variable {clock : Nat → Int} {key : RadixKey} {priority : Option Int} {chunked : Bool}

theorem last_page (nonempty : 0 < len) (pages : pageSize ∣ len) : ∃ len', len = len' + pageSize ∧ pageSize ∣ len' := by
  have le := Nat.le_of_dvd nonempty pages
  exact ⟨len - pageSize, by omega, Nat.dvd_sub pages (Nat.dvd_refl _)⟩

theorem run_ne_nil (pos : 0 < pageSize) (room : len + pageSize ≤ tokens.length) : front ++ tokens.take (len + pageSize) ≠ [] := by
  intro none
  have := congrArg List.length (append_eq_nil_iff.mp none).2
  rw [length_take, length_nil] at this
  omega

theorem blockHash_cut (hasher : BlockHash) (pos : 0 < pageSize) (whole : pageSize ∣ front.length) (pages : pageSize ∣ len)
    (room : len + pageSize ≤ tokens.length) : ∃ hash, hasher.blockHash pageSize (front ++ tokens.take (len + pageSize)) = some hash := by
  unfold BlockHash.blockHash
  rw [digest_cut pos whole pages room]
  exact ⟨_, rfl⟩

theorem Steps.holds {c' : RadixCache} (steps : Steps c c') (wf : c.Wf) (extraKey : Option String) (tokens : List Nat) :
    c'.Holds extraKey tokens ↔ c.Holds extraKey tokens :=
  and_congr_right (fun _ => exists_congr (fun _ => steps.below_iff wf (.inl rfl)))

theorem Hashed.insert (clock : Nat → Int) (key : RadixKey) (priority : Option Int) (chunked : Bool) (hashed : Hashed hasher pageSize t)
    (pos : 0 < pageSize) (wf : t.Wf) (enabled : t.disable = false)
    (whole : pageSize ∣ key.tokenIds.length) :
    Hashed hasher pageSize (t.insert clock key none priority chunked).2 ∧
      ∃ new, Announces hasher pageSize t (t.insert clock key none priority chunked).2 new := by
  have size := hashed.size
  have sized : ((none : Option (List Nat)).getD key.tokenIds).length = key.tokenIds.length := rfl
  obtain ⟨t₁, found, steps, ⟨hashed₁, queue₁⟩, longest, _, result⟩ := insert_spec (Hashed.walkRule pos clock t.kvEventQueue) priority chunked
    enabled wf (by rwa [size]) hashed.aligned (by rwa [size]) sized ⟨hashed, rfl⟩
  have same := Steps.holds steps wf
  rcases result with ⟨_, done⟩ | ⟨leaf, fits, leafKey, _, path, done⟩
  · rw [done]
    exact ⟨hashed₁, [], .quiet queue₁ same⟩
  · rw [done]
    have wf₁ := steps.wf wf
    have space : leaf.key.extraKey = key.extraKey := by rw [leafKey]
    rw [← space] at path
    have front := hashed₁.size ▸ path.whole hashed₁.aligned
    have tail : pageSize ∣ leaf.key.tokenIds.length := by
      rw [leafKey, length_drop]
      exact Nat.dvd_sub whole (size ▸ Found.whole hashed.aligned longest)
    obtain ⟨hashed₂, queue₂⟩ := hashed₁.addLeaf pos wf₁ fits tail path
    rw [queue₁] at queue₂
    have below {k : Option String} {p slots : List Nat} := @below_addLeaf p slots t₁.toRadixCache k leaf _ _ wf₁ fits (by rwa [hashed₁.size]) path
    rw [hashed₁.size] at below
    refine ⟨hashed₂, _, queue₂, fun event mem => ?_, fun k p held => ?_, fun k p held => ?_⟩
    · obtain ⟨len, hash, pages, room, same', rfl⟩ := (mem_storeEvents_run pos front tail).mp mem
      have next : key.tokenIds.take found.length ++ leaf.key.tokenIds.take (len + pageSize) =
          key.tokenIds.take found.length ++ leaf.key.tokenIds.take len ++ (leaf.key.tokenIds.drop len).take pageSize := by
        rw [take_add, append_assoc]
      have held : (t₁.addLeaf leaf).Holds leaf.key.extraKey (key.tokenIds.take found.length ++ leaf.key.tokenIds.take (len + pageSize)) := by
        refine ⟨run_ne_nil pos room, found ++ leaf.value.take (len + pageSize), ?_⟩
        rw [addLeaf_cache]
        exact below.mpr (.inr ⟨rfl, len + pageSize, Nat.dvd_add pages (Nat.dvd_refl _), room, rfl, rfl⟩)
      rw [next] at same' held
      refine ⟨hash, leaf.key.extraKey, _, _, rfl, ?_, same', held⟩
      rw [length_take, length_drop]
      omega
    · obtain ⟨nonempty, slots, stored⟩ := (same k p).mpr held
      refine ⟨nonempty, slots, ?_⟩
      rw [addLeaf_cache]
      exact below.mpr (.inl stored)
    · obtain ⟨nonempty, slots, stored⟩ := held
      rw [addLeaf_cache] at stored
      rcases below.mp stored with old | ⟨rfl, len, pages, le, rfl, _⟩
      · exact .inl ((same k p).mp ⟨nonempty, slots, old⟩)
      · rcases Nat.eq_zero_or_pos len with rfl | some
        · rw [take_zero, append_nil] at nonempty ⊢
          have held := path.stored .here
          rw [append_nil] at held
          exact .inl ((same _ _).mp ⟨nonempty, _, held⟩)
        · obtain ⟨len, rfl, shorter⟩ := last_page some pages
          obtain ⟨hash, same'⟩ := blockHash_cut hasher pos front shorter le
          exact .inr ⟨hash, _, _, _, same', (mem_storeEvents_run pos front tail).mpr ⟨len, hash, shorter, le, same', rfl⟩⟩

theorem Hashed.matchPrefix (clock : Nat → Int) (key : RadixKey) (hashed : Hashed hasher pageSize t) (pos : 0 < pageSize) (wf : t.Wf) :
    Hashed hasher pageSize (t.matchPrefix clock key).2 ∧ Announces hasher pageSize t (t.matchPrefix clock key).2 [] := by
  have pos' : 0 < t.pageSize := by rwa [hashed.size]
  obtain ⟨hashed', queue⟩ := (Hashed.walkRule pos clock t.kvEventQueue).matchPrefix key wf pos' ⟨hashed, rfl⟩
  exact ⟨hashed', .quiet queue (Steps.holds (match_steps clock key wf pos').1 wf)⟩

theorem Hashed.withdraws (hashed : Hashed hasher pageSize t) (pos : 0 < pageSize) (wf : t.Wf) (leaf : t.IsLeaf x) :
    Hashed hasher pageSize (t.evictLeaf x) ∧ ∃ gone, Withdraws hasher pageSize t (t.evictLeaf x) gone := by
  obtain ⟨_, _, path, _⟩ := hashed.digests x leaf.member
  obtain ⟨hashed', queue⟩ := hashed.evictLeaf wf leaf path
  have size := hashed.size
  have whole := size ▸ path.whole hashed.aligned
  have tail : pageSize ∣ x.key.tokenIds.length := size ▸ hashed.aligned x leaf.member
  refine ⟨hashed', _, queue, fun k p held => ?_, fun hash mem => ?_, fun k p held absent => ?_⟩
  · obtain ⟨nonempty, slots, stored⟩ := held
    rw [evictLeaf_cache] at stored
    exact ⟨nonempty, slots, stored.mono (delete_embeds _ x)⟩
  · obtain ⟨digest, listed, rfl⟩ := mem_map.mp mem
    obtain ⟨len, pages, room, same⟩ := (mem_chain_run pos whole tail).mp listed
    have pages' : t.pageSize ∣ len + pageSize := by
      rw [size]
      exact Nat.dvd_add pages (Nat.dvd_refl _)
    refine ⟨x.key.extraKey, _, ⟨run_ne_nil pos room, _, path.stored (.part leaf.member rfl pages' room)⟩, ?_, ?_⟩
    · rintro ⟨_, slots, stored⟩
      rw [evictLeaf_cache] at stored
      exact not_below_delete wf hashed.aligned leaf path (by omega) pages' room stored
    · rw [BlockHash.blockHash, same]
      rfl
  · obtain ⟨nonempty, slots, stored⟩ := held
    rcases stored.deleteLeaf_cases wf hashed.aligned leaf .root with still | ⟨space, _, _, len, path', some, pages, le, rest⟩
    · rw [← evictLeaf_cache] at still
      exact absurd ⟨nonempty, slots, still⟩ absent
    · rw [← space] at path'
      obtain ⟨rfl, rfl⟩ := path.unique wf path'
      rw [nil_append] at rest
      rw [size] at pages
      obtain ⟨len, rfl, shorter⟩ := last_page some pages
      obtain ⟨hash, same⟩ := blockHash_cut hasher pos whole shorter le
      obtain ⟨digest, same', rfl⟩ := Option.map_eq_some_iff.mp same
      rw [rest]
      exact ⟨_, mem_map_of_mem ((mem_chain_run pos whole tail).mpr ⟨len, shorter, le, same'⟩), same⟩

end

end RadixTree

/-! ### Whole runs -/

namespace CacheState
variable {α : Type} [SlotAllocator α] {hasher : BlockHash} {disable : Bool} {pageSize : Nat} {s : CacheState α} {op : CacheOp}

def eventGuard (pageSize : Nat) (s : CacheState α) (op : CacheOp) : Prop := s.guard op ∧ op.Whole pageSize

/-- No run that the operation took from the tree is still there under another extra key. -/
def Unshared (s s' : CacheState α) : Prop :=
  ∀ extraKey extraKey' tokens, s.tree.Holds extraKey tokens → ¬ s'.tree.Holds extraKey tokens → ¬ s'.tree.Holds extraKey' tokens

structure EventInv (hasher : BlockHash) (disable : Bool) (pageSize : Nat) (s : CacheState α) : Prop where
  cache : s.Inv disable pageSize
  hashed : s.tree.bare.Hashed hasher pageSize

omit [SlotAllocator α] in
theorem exact_bare {t : RadixTree} : t.bare.Exact hasher pageSize ↔ t.Exact hasher pageSize :=
  forall_congr' (fun _ => iff_congr Iff.rfl (exists_congr (fun _ => exists_congr (fun _ => and_congr_left (fun _ => holds_bare)))))

omit [SlotAllocator α] in
theorem EventInv.start (hasher : BlockHash) (disable : Bool) (pageSize : Nat) (allocator : α) :
    (CacheState.start disable pageSize true hasher allocator).EventInv hasher disable pageSize :=
  ⟨.start .., rfl, rfl, rfl, fun _ mem => (by cases mem), fun _ mem => (by cases mem)⟩

omit [SlotAllocator α] in
theorem exact_start (hasher : BlockHash) (disable : Bool) (pageSize : Nat) (allocator : α) :
    (CacheState.start disable pageSize true hasher allocator).tree.Exact hasher pageSize := by
  intro hash
  refine ⟨fun mem => absurd mem (Finset.notMem_empty hash), ?_⟩
  rintro ⟨_, _, ⟨nonempty, _, below⟩, _⟩
  exact absurd ((Tracked.below_of_empty rfl).mp below).1 nonempty

theorem step_events (pos : 0 < pageSize) (inv : s.EventInv hasher disable pageSize) (allowed : s.eventGuard pageSize op) :
    (s.step op).EventInv hasher disable pageSize ∧
      (op.evicts = false ∧ (∃ new, RadixTree.Announces hasher pageSize s.tree.bare (s.step op).tree.bare new) ∨
        op.evicts = true ∧ ∃ gone, RadixTree.Withdraws hasher pageSize s.tree.bare (s.step op).tree.bare gone) := by
  obtain ⟨cache, hashed⟩ := inv
  have cache' := step_inv pos op cache allowed.1
  have wf := cache.accounts.wf
  cases disable with
  | true =>
    have same := step_of_disabled cache.setting op
    refine ⟨⟨cache', by rwa [same]⟩, ?_⟩
    rw [same]
    cases op.evicts with
    | false => exact .inl ⟨rfl, [], .quiet rfl (fun _ _ => Iff.rfl)⟩
    | true => exact .inr ⟨rfl, [], .refl ..⟩
  | false =>
    -- locks leave every node at its place
    have still {c : RadixCache} (embeds : Embeds s.tree.bare.toRadixCache c ∧ Embeds c s.tree.bare.toRadixCache) :
        RadixTree.Announces hasher pageSize s.tree.bare { s.tree.bare with toRadixCache := c } [] :=
      .quiet rfl (fun _ _ => and_congr_right (fun _ => exists_congr (fun _ => ⟨fun below => below.mono embeds.2, fun below => below.mono embeds.1⟩)))
    cases op with
    | insert clock key value priority chunked =>
      obtain ⟨hashed', announces⟩ := hashed.insert clock key priority chunked pos wf cache.setting allowed.2
      rw [← RadixTree.bare_insert _ _ _ _ value] at hashed' announces
      exact ⟨⟨cache', hashed'⟩, .inl ⟨rfl, announces⟩⟩
    | matchPrefix clock key =>
      obtain ⟨hashed', announces⟩ := hashed.matchPrefix clock key pos wf
      rw [(s.tree.bare_matchPrefix clock key).1] at hashed' announces
      exact ⟨⟨cache', hashed'⟩, .inl ⟨rfl, [], announces⟩⟩
    | incLockRef id =>
      have embeds := incLock_embeds s.tree.bare.toRadixCache id
      rw [show s.tree.bare.toRadixCache.incLockRef id = _ from (s.tree.toRadixCache.bare_incLockRef id).symm] at embeds
      exact ⟨⟨cache', hashed.embeds embeds.1 embeds.2⟩, .inl ⟨rfl, [], still embeds⟩⟩
    | decLockRef id =>
      have embeds := decLock_embeds s.tree.bare.toRadixCache id
      rw [show s.tree.bare.toRadixCache.decLockRef id = _ from (s.tree.toRadixCache.bare_decLockRef id).symm] at embeds
      exact ⟨⟨cache', hashed.embeds embeds.1 embeds.2⟩, .inl ⟨rfl, [], still embeds⟩⟩
    | evict order numTokens =>
      obtain ⟨hashed', withdraws⟩ := (RadixTree.evict_rule_bare
        (fun (t : RadixTree) (_ : α) => t.bare.Hashed hasher pageSize ∧ ∃ gone, RadixTree.Withdraws hasher pageSize s.tree.bare t.bare gone)
        (fun t _ x wf leaf before => by
          obtain ⟨hashed, gone, withdraws⟩ := before
          obtain ⟨hashed', _, withdraws'⟩ := hashed.withdraws pos wf leaf.bare
          rw [RadixTree.bare_evictLeaf]
          exact ⟨hashed', _, withdraws.trans withdraws'⟩) order numTokens (a := s.allocator) wf ⟨hashed, [], .refl ..⟩).2
      exact ⟨⟨cache', hashed'⟩, .inr ⟨rfl, withdraws⟩⟩

theorem step_exact (pos : 0 < pageSize) (injective : hasher.Injective) (inv : s.EventInv hasher disable pageSize)
    (allowed : s.eventGuard pageSize op) (exact : s.tree.Exact hasher pageSize) :
    (s.step op).tree.Exact hasher pageSize ↔ (op.evicts = true → Unshared s (s.step op)) := by
  rw [← exact_bare] at exact ⊢
  rcases (step_events pos inv allowed).2 with ⟨stays, _, announces⟩ | ⟨evicts, _, withdraws⟩
  · exact ⟨fun _ evicts => absurd evicts (by simp [stays]), fun _ => announces.exact exact⟩
  · rw [withdraws.exact_iff injective pos exact]
    unfold Unshared
    simp only [evicts, true_imp_iff, show ∀ (t : RadixTree) k p, t.bare.Holds k p ↔ t.Holds k p from fun _ _ _ => holds_bare]

/-- Replayed events give the hashes of the pages in the tree after every step iff no eviction takes a run that stays under another extra key. -/
theorem events_describe_cache (positive : 0 < pageSize) (disable : Bool) (injective : hasher.Injective) (allocator : α) {ops : List CacheOp}
    (guarded : Runs.Guarded step (eventGuard pageSize) (start disable pageSize true hasher allocator) ops) :
    let run (k : Nat) := (ops.take k).foldl step (start disable pageSize true hasher allocator)
    ((∀ k ≤ ops.length, (run k).tree.Exact hasher pageSize) ↔
        ∀ k order numTokens, ops[k]? = some (.evict order numTokens) → Unshared (run k) (run (k + 1))) ∧
      ∀ k < ops.length, ∃ new, (run (k + 1)).tree.kvEventQueue = (run k).tree.kvEventQueue ++ new ∧
        ∀ hash parent page size, .blockStored hash parent page size ∈ new → ∃ extraKey before, (run (k + 1)).tree.Holds extraKey (before ++ page) ∧
          hasher.blockHash pageSize (before ++ page) = some hash ∧ parent = hasher.blockHash pageSize before ∧ page.length = pageSize ∧
            size = pageSize := by
  intro run
  -- the state before a step and the step
  have place {k : Nat} {op : CacheOp} (here : ops[k]? = some op) :
      (run k).EventInv hasher disable pageSize ∧ (run k).eventGuard pageSize op ∧ run (k + 1) = (run k).step op := by
    obtain ⟨reachable, allowed, next⟩ := guarded.place .start here
    exact ⟨reachable.invariant _ (.start hasher disable pageSize allocator)
      (fun _ _ inv allowed => (step_events positive inv allowed).1), allowed, next⟩
  refine ⟨⟨fun exact k order numTokens here => ?_, fun unshared k le => ?_⟩, fun k inside => ?_⟩
  · obtain ⟨inv, allowed, next⟩ := place here
    have inside := (List.getElem?_eq_some_iff.mp here).1
    have after := exact (k + 1) inside
    rw [next] at after ⊢
    exact (step_exact positive injective inv allowed (exact k inside.le)).mp after rfl
  · induction k with
    | zero => exact exact_start hasher disable pageSize allocator
    | succ k ih =>
      have here := getElem?_eq_getElem (Nat.lt_of_succ_le le)
      obtain ⟨inv, allowed, next⟩ := place here
      rw [next, step_exact positive injective inv allowed (ih (Nat.le_of_succ_le le)), ← next]
      intro evicts
      cases op : ops[k] with
      | evict order numTokens => exact unshared k order numTokens (here.trans (congrArg some op))
      | _ => rw [op] at evicts; cases evicts
  · obtain ⟨inv, allowed, next⟩ := place (getElem?_eq_getElem inside)
    rw [next]
    rcases (step_events positive inv allowed).2 with ⟨_, new, announces⟩ | ⟨_, _, withdraws⟩
    · refine ⟨new, announces.queue, fun hash parent page size member => ?_⟩
      obtain ⟨_, extraKey, before, _, same, length, hashes, held⟩ := announces.stored _ member
      cases same
      exact ⟨extraKey, before, holds_bare.mp held, hashes, rfl, length, rfl⟩
    · refine ⟨_, withdraws.queue, fun hash parent page size member => ?_⟩
      obtain ⟨_, _, same⟩ := mem_map.mp member
      cases same

open BlockHash (pairing pairing_injective)

theorem events_describe_cache_after_split : ∃ ops : List CacheOp, ops.length = 3 ∧ (∃ op ∈ ops, op.evicts = true) ∧
      Runs.Guarded step (eventGuard 1) (start false 1 true pairing (KVAllocator.token (.clear 8 false))) ops ∧
      ∀ k ≤ ops.length, ((ops.take k).foldl step (start false 1 true pairing (KVAllocator.token (.clear 8 false)))).tree.Exact pairing 1 := by
  have whole (n : Nat) : 1 ∣ n := Nat.one_dvd n
  have guarded : Runs.Guarded step (eventGuard 1) (start false 1 true pairing (KVAllocator.token (.clear 8 false)))
      [.insert (fun _ => 0) ⟨[1, 2], none⟩ (some [1, 2]) none false, .matchPrefix (fun _ => 1) ⟨[1], none⟩, .evict (.ofStrategy .lru) 8] :=
    ⟨⟨trivial, whole _⟩, ⟨trivial, trivial⟩, ⟨trivial, trivial⟩, trivial⟩
  refine ⟨_, rfl, ⟨_, mem_of_getElem? (rfl : _[2]? = some _), rfl⟩, guarded, ?_⟩
  refine (events_describe_cache Nat.one_pos false pairing_injective _ guarded).1.mpr (fun k order numTokens here => ?_)
  obtain rfl : k = 2 := by
    match k, here with
    | 2, _ => rfl
  rintro _ _ _ _ _ ⟨nonempty, _, below⟩
  exact nonempty ((Tracked.below_of_empty (by decide +kernel)).mp below).1

/-- One page under two extra keys: the eviction of one takes the hash of both. -/
theorem shared_page_withdrawn :
    let ops : List CacheOp := [.insert (fun _ => 0) ⟨[1], none⟩ (some [1]) none false, .insert (fun _ => 1) ⟨[1], some "a"⟩ (some [2]) none false,
      .evict (.ofStrategy .lru) 1]
    let s := ops.foldl step (start false 1 true pairing (KVAllocator.token (.clear 8 false)))
    Runs.Guarded step (eventGuard 1) (start false 1 true pairing (KVAllocator.token (.clear 8 false))) ops ∧ pairing.Injective ∧
      replay s.tree.kvEventQueue = ∅ ∧ s.tree.Holds (some "a") [1] ∧ ¬ s.tree.Exact pairing 1 := by
  intro ops s
  have whole (n : Nat) : 1 ∣ n := Nat.one_dvd n
  have none : replay s.tree.kvEventQueue = ∅ := by decide +kernel
  have held : s.tree.Holds (some "a") [1] := by
    obtain ⟨n, member, parent, key⟩ : ∃ n ∈ s.tree.nodes, n.parent = 0 ∧ n.key = ⟨[1], some "a"⟩ := by decide +kernel
    have below := @Below.part s.tree.toRadixCache (some "a") n 1 member (by rw [key]) (whole 1) (by rw [key]; exact le_refl _)
    rw [parent, key] at below
    exact ⟨cons_ne_nil _ _, _, below⟩
  refine ⟨⟨⟨trivial, whole _⟩, ⟨trivial, whole _⟩, ⟨trivial, trivial⟩, trivial⟩, pairing_injective, none, held, fun exact => ?_⟩
  obtain ⟨hash, same⟩ : ∃ hash, pairing.blockHash 1 [1] = some hash := ⟨_, rfl⟩
  have member := (exact hash).mpr ⟨_, _, held, same⟩
  rw [none] at member
  exact absurd member (Finset.notMem_empty hash)

end CacheState

end TriaxialKV
