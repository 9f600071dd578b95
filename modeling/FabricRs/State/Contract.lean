/-
  FabricRs.State.Contract — one contract over the route and the forwarding table.

  The same operations, with the same keys, run on a `RouteTable` and on a `ForwardingTable`.
  The first is a hash map of the keys themselves. The second is a trie: it keeps one entry
  for a key's leading bits, and a lookup finds the longest prefix stored. So the two part
  where one key's bits are the beginning of another's (`Overlap`), which a key with host
  bits set and its network do too.

  - `routes_exact`: the route table finds what was last added under exactly the key.
  - `hops_longest`: the forwarding table, what was last added under its longest prefix.
  - `tables_contract_iff`: keys may be used on both as on one table exactly if no two of
    them overlap.
-/

import FabricRs.Lib.LastWrite
import FabricRs.State.Tables

namespace FabricRs.State

open LastWrite (value Last)
open Lpm (LongestMatch)

namespace Contract

/-- A prefix and its length, as the route table has them. -/
abbrev PrefixKey := U32 × U8

def toRouting (k : PrefixKey) : RoutingTableKey := ⟨k.1, k.2⟩

def toForwarding (k : PrefixKey) : ForwadingTableKey := ⟨k.1, k.2.setWidth 32⟩

/-- An operation on both tables, each with a value of its own. -/
inductive Op where
  | add (k : PrefixKey) (route : Route) (nextHops : NextHops)
  | remove (k : PrefixKey)
  | get (k : PrefixKey)
  | list

def Op.keys : Op → List PrefixKey
  | add k _ _ => [k]
  | remove k => [k]
  | get k => [k]
  | list => []

structure Both where
  routes : RouteTable
  hops : ForwardingTable

/-- `get` and `list` change neither. -/
def exec (t : Both) : Op → Both
  | .add k route nextHops => ⟨Table.add t.routes (toRouting k) ⟨route⟩, Table.add t.hops (toForwarding k) ⟨nextHops⟩⟩
  | .remove k => ⟨Table.remove t.routes (toRouting k), Table.remove t.hops (toForwarding k)⟩
  | .get _ => t
  | .list => t

def run (ops : List Op) : Both := ops.foldl exec ⟨.new, ⟨noRoutes⟩⟩

/-- The trie's key. -/
def trieKey (k : PrefixKey) : Lpm.Key U32 := lpmKey (toForwarding k).prefixLen (toForwarding k).prefixIp

/-- The number of entries stays within the trie's capacity: no add is refused. -/
def Within (ops : List Op) : Prop :=
  ∀ pre k route nextHops post, ops = pre ++ .add k route nextHops :: post →
    ((run pre).hops.entries.insert (trieKey k) nextHops).isSome

/-- What an operation does to the values under exactly `k`. -/
def effect : Op → PrefixKey → Option (Option (Route × NextHops))
  | .add k route nextHops, k' => if k' = k then some (some (route, nextHops)) else none
  | .remove k, k' => if k' = k then some none else none
  | _, _ => none

/-- What an operation does to the trie's entry under the bits `p`. -/
def bitsEffect : Op → List Bool → Option (Option (PrefixKey × NextHops))
  | .add k _ nextHops, p => if p = (trieKey k).bits nativeBit then some (some (k, nextHops)) else none
  | .remove k, p => if p = (trieKey k).bits nativeBit then some none else none
  | _, _ => none

def getRoute (t : Both) (k : PrefixKey) : Option Route := (Table.get t.routes (toRouting k)).map (·.route)

def getHops (t : Both) (k : PrefixKey) : Option NextHops := (Table.get t.hops (toForwarding k)).map (·.nextHops)

/-- The contract, at each `get` and each `list` of the sequence. -/
structure Holds (ops : List Op) : Prop where
  /-- One table finds a value if the other does. -/
  found : ∀ pre k post, ops = pre ++ .get k :: post → ((getHops (run pre) k).isSome ↔ (getRoute (run pre) k).isSome)
  /-- It is the one last added under exactly the key. -/
  exact_ : ∀ pre k post, ops = pre ++ .get k :: post →
    (∀ v, getHops (run pre) k = some v → ∃ r, Last effect pre k (r, v)) ∧
    (∀ r, getRoute (run pre) k = some r → ∃ v, Last effect pre k (r, v))
  removed : ∀ pre k post, ops = pre ++ .remove k :: .get k :: post →
    getHops (run (pre ++ [.remove k])) k = none ∧ getRoute (run (pre ++ [.remove k])) k = none
  /-- Both list the same keys, each once. -/
  listed : ∀ pre post, ops = pre ++ .list :: post → ∀ lf lr,
    Table.lists (run pre).hops lf → Table.lists (run pre).routes lr →
      (lf.map fun e => (e.1.prefixIp, e.1.prefixLen)).Nodup ∧
      (lr.map fun e => (e.1.prefixIp, e.1.prefixLen.setWidth 32)).Nodup ∧
      ∀ x : U32 × U32, x ∈ lf.map (fun e => (e.1.prefixIp, e.1.prefixLen)) ↔
        x ∈ lr.map fun e => (e.1.prefixIp, e.1.prefixLen.setWidth 32)

/-- Two keys one of which covers the other's prefix. -/
def Overlap (k k' : PrefixKey) : Prop := k ≠ k' ∧ k.2.toNat ≤ k'.2.toNat ∧ (trieKey k).Covers nativeBit k'.1

/-! ## Keys -/

theorem setWidth_toNat (l : U8) : (l.setWidth 32).toNat = l.toNat := by
  rw [BitVec.toNat_setWidth]
  have := l.isLt
  omega

@[simp] theorem trieKey_len (k : PrefixKey) : (trieKey k).len = k.2.toNat := setWidth_toNat k.2

/-- Two keys with the same bits overlap, or are one. -/
theorem eq_of_bits {k k' : PrefixKey} (h : ¬ Overlap k k')
    (hb : (trieKey k).bits nativeBit = (trieKey k').bits nativeBit) : k = k' := by
  obtain ⟨hl, hc⟩ := (Lpm.key_bits_eq_iff nativeBit).mp hb
  rw [trieKey_len, trieKey_len] at hl
  by_contra hne
  exact h ⟨hne, by omega, hc⟩

/-! ## What a run leaves -/

theorem run_snoc (ops : List Op) (op : Op) : run (ops ++ [op]) = exec (run ops) op := by
  simp [run]

theorem Within.left {ops rest : List Op} (h : Within (ops ++ rest)) : Within ops := by
  intro pre k route nextHops post he
  exact h pre k route nextHops (post ++ rest) (by rw [he]; simp)

theorem effect_add (k : PrefixKey) (r : Route) (v : NextHops) (k' : PrefixKey) :
    effect (.add k r v) k' = if k' = k then some (some (r, v)) else none := rfl

theorem effect_remove (k k' : PrefixKey) : effect (.remove k) k' = if k' = k then some none else none := rfl

theorem bitsEffect_add (k : PrefixKey) (r : Route) (v : NextHops) (p : List Bool) :
    bitsEffect (.add k r v) p = if p = (trieKey k).bits nativeBit then some (some (k, v)) else none := rfl

theorem bitsEffect_remove (k : PrefixKey) (p : List Bool) :
    bitsEffect (.remove k) p = if p = (trieKey k).bits nativeBit then some none else none := rfl

theorem routes_lookup (ops : List Op) (k : PrefixKey) :
    (run ops).routes.entries.lookup k = (value effect ops k).map (·.1) := by
  induction ops using List.reverseRecOn with
  | nil => rfl
  | append_singleton ops op ih =>
    rw [run_snoc]
    cases op with
    | add k' r v =>
      rw [LastWrite.value_snoc_ite effect (effect_add k' r v k), apply_ite (Option.map _), ← ih]
      exact HashMap.lookup_insert _ _ _ _
    | remove k' =>
      rw [LastWrite.value_snoc_ite effect (effect_remove k' k), apply_ite (Option.map _), ← ih]
      exact HashMap.lookup_erase _ _ _
    | get k' => rw [LastWrite.value_snoc]; exact ih
    | list => rw [LastWrite.value_snoc]; exact ih

theorem hops_entry {ops : List Op} (h : Within ops) (p : List Bool) :
    (run ops).hops.entries.entry p = (value bitsEffect ops p).map fun e => (trieKey e.1, e.2) := by
  induction ops using List.reverseRecOn with
  | nil => rfl
  | append_singleton ops op ih =>
    have ih := ih h.left
    rw [run_snoc]
    cases op with
    | add k r v =>
      obtain ⟨t, ht⟩ := Option.isSome_iff_exists.mp (h ops k r v [] rfl)
      have hrun : (exec (run ops) (.add k r v)).hops.entries = t := by
        show Option.getD ((run ops).hops.entries.insert (trieKey k) v) _ = t
        rw [ht]
        rfl
      rw [hrun, Lpm.Trie.insert_entry ht, Function.update_apply, LastWrite.value_snoc_ite bitsEffect (bitsEffect_add k r v p),
        apply_ite (Option.map _), ← ih]
      rfl
    | remove k =>
      have hrun : (exec (run ops) (.remove k)).hops.entries = (run ops).hops.entries.remove (trieKey k) := rfl
      rw [hrun, Lpm.Trie.remove_entry, Function.update_apply, LastWrite.value_snoc_ite bitsEffect (bitsEffect_remove k p),
        apply_ite (Option.map _), ← ih]
      rfl
    | get k => rw [LastWrite.value_snoc]; exact ih
    | list => rw [LastWrite.value_snoc]; exact ih

/-! ## Lookups -/

theorem getRoute_eq (t : Both) (k : PrefixKey) : getRoute t k = t.routes.entries.lookup k := by
  show ((t.routes.entries.lookup k).map RoutingTableValue.mk).map (·.route) = _
  rw [Option.map_map]
  exact Option.map_id'

theorem getHops_eq (t : Both) (k : PrefixKey) : getHops t k = t.hops.entries.get (trieKey k) := by
  show ((t.hops.entries.get (trieKey k)).map ForwadingTableValue.mk).map (·.nextHops) = _
  rw [Option.map_map]
  exact Option.map_id'

/-- The route table finds what was last added under exactly the key. -/
theorem routes_exact (ops : List Op) (k : PrefixKey) : getRoute (run ops) k = (value effect ops k).map (·.1) := by
  rw [getRoute_eq, routes_lookup]

/-- The forwarding table finds what was last added under the longest prefix of the key's
    that is stored. -/
theorem hops_longest {ops : List Op} (h : Within ops) {k : PrefixKey} (hk : k.2.toNat ≤ 32) :
    LongestMatch (fun p => (value bitsEffect ops p).map (·.2)) ((trieKey k).bits nativeBit) (getHops (run ops) k) := by
  have hmap : (run ops).hops.entries.map = fun p => (value bitsEffect ops p).map (·.2) := by
    funext p
    rw [Lpm.Trie.map_eq, hops_entry h, Option.map_map]
    rfl
  rw [getHops_eq, ← hmap]
  exact Lpm.Trie.get_longest _ (by rw [trieKey_len]; exact hk)

/-- Under a key of more than 32 bits it finds nothing, whatever is stored. -/
theorem hops_long {k : PrefixKey} (hk : 32 < k.2.toNat) (t : Both) : getHops t k = none := by
  rw [getHops_eq]
  exact Lpm.Trie.get_of_gt (by rw [trieKey_len]; exact hk)

/-! ## Keys that do not overlap -/

section separate

variable {K : PrefixKey → Prop}

/-- The operations' keys are of `K`. -/
def Uses (K : PrefixKey → Prop) (ops : List Op) : Prop := ∀ op ∈ ops, ∀ k ∈ op.keys, K k

theorem Uses.left {ops rest : List Op} (h : Uses K (ops ++ rest)) : Uses K ops :=
  fun op hop => h op (List.mem_append_left _ hop)

/-- The entry under a key's bits is the key's own. -/
theorem value_bits (hK : ∀ k k', K k → K k' → ¬ Overlap k k') {ops : List Op} (hu : Uses K ops) {k : PrefixKey}
    (hk : K k) : value bitsEffect ops ((trieKey k).bits nativeBit) = (value effect ops k).map fun x => (k, x.2) := by
  induction ops using List.reverseRecOn with
  | nil => rfl
  | append_singleton ops op ih =>
    have ih := ih hu.left
    have hbits : ∀ k' ∈ op.keys, (trieKey k).bits nativeBit = (trieKey k').bits nativeBit ↔ k = k' := by
      intro k' hk'
      refine ⟨eq_of_bits (hK k k' hk (hu op (by simp) k' hk')), fun e => by rw [e]⟩
    rw [LastWrite.value_snoc, LastWrite.value_snoc]
    cases op with
    | add k' r v =>
      rw [bitsEffect_add, effect_add]
      by_cases e : k = k'
      · rw [if_pos ((hbits k' (by simp [Op.keys])).mpr e), if_pos e, e]
        rfl
      · rw [if_neg fun h => e ((hbits k' (by simp [Op.keys])).mp h), if_neg e]
        exact ih
    | remove k' =>
      rw [bitsEffect_remove, effect_remove]
      by_cases e : k = k'
      · rw [if_pos ((hbits k' (by simp [Op.keys])).mpr e), if_pos e]
        rfl
      · rw [if_neg fun h => e ((hbits k' (by simp [Op.keys])).mp h), if_neg e]
        exact ih
    | get k' => exact ih
    | list => exact ih

theorem bitsEffect_some {op : Op} {p : List Bool} {k : PrefixKey} {v : NextHops} (h : bitsEffect op p = some (some (k, v))) :
    k ∈ op.keys := by
  cases op with
  | add k' r v' =>
    rw [bitsEffect_add] at h
    split at h
    · cases h
      simp [Op.keys]
    · cases h
  | remove k' =>
    rw [bitsEffect_remove] at h
    split at h <;> cases h
  | get k' => cases h
  | list => cases h

theorem effect_some {op : Op} {k : PrefixKey} {x : Option (Route × NextHops)} (h : effect op k = some x) : k ∈ op.keys := by
  cases op with
  | add k' r v =>
    rw [effect_add] at h
    split at h
    · subst k
      simp [Op.keys]
    · cases h
  | remove k' =>
    rw [effect_remove] at h
    split at h
    · subst k
      simp [Op.keys]
    · cases h
  | get k' => cases h
  | list => cases h

/-- What is stored was added under a key of `K`, and is what was last. -/
theorem entry_added (hK : ∀ k k', K k → K k' → ¬ Overlap k k') {ops : List Op} (h : Within ops) (hu : Uses K ops)
    {e : Lpm.Key U32 × NextHops} (he : e ∈ (run ops).hops.entries.entries) :
    ∃ k r, K k ∧ e.1 = trieKey k ∧ value effect ops k = some (r, e.2) := by
  have hentry := hops_entry h (e.1.bits nativeBit)
  rw [Lpm.Trie.entry_eq_some.mpr ⟨he, rfl⟩] at hentry
  obtain ⟨⟨k, v⟩, hv, rfl⟩ := Option.map_eq_some_iff.mp hentry.symm
  obtain ⟨pre, op, post, rfl, hop, -⟩ := (LastWrite.value_eq_some bitsEffect).mp hv
  have hk : K k := hu op (by simp) k (bitsEffect_some hop)
  rw [value_bits hK hu hk] at hv
  obtain ⟨⟨r, v'⟩, hr, hkv⟩ := Option.map_eq_some_iff.mp hv
  cases hkv
  exact ⟨k, r, hk, rfl, hr⟩

theorem hops_exact (hK : ∀ k k', K k → K k' → ¬ Overlap k k') {ops : List Op} (h : Within ops) (hu : Uses K ops)
    {k : PrefixKey} (hk : K k) (hl : k.2.toNat ≤ 32) : getHops (run ops) k = (value effect ops k).map (·.2) := by
  have halone : ∀ e ∈ (run ops).hops.entries.entries, e.1.len ≤ (trieKey k).len →
      e.1.Covers nativeBit (trieKey k).data → e.1 = trieKey k := by
    intro e he hl hc
    obtain ⟨k', r, hk', hek, -⟩ := entry_added hK h hu he
    rw [hek, trieKey_len, trieKey_len] at hl
    rw [hek] at hc ⊢
    by_contra hne
    exact hK k' k hk' hk ⟨fun e => hne (by rw [e]), hl, hc⟩
  rw [getHops_eq, Lpm.Trie.get_exact (by rw [trieKey_len]; exact hl) halone, Lpm.Trie.map_eq, hops_entry h, value_bits hK hu hk, Option.map_map,
    Option.map_map]
  rfl

/-! ### The lists -/

theorem hops_listed {t : Both} {lf : List (ForwadingTableKey × ForwadingTableValue)} (h : Table.lists t.hops lf) :
    (lf.map fun e => (e.1.prefixIp, e.1.prefixLen)).Nodup ∧
    ∀ x : U32 × U32, x ∈ lf.map (fun e => (e.1.prefixIp, e.1.prefixLen)) ↔
      ∃ v, (lpmKey x.2 x.1, v) ∈ t.hops.entries.entries := by
  have hp : (lf.map fun e => (lpmKey e.1.prefixLen e.1.prefixIp, e.2.nextHops)).Perm t.hops.entries.entries := h
  refine ⟨?_, fun x => ⟨fun hx => ?_, fun ⟨v, hv⟩ => ?_⟩⟩
  · have hbits := (hp.map fun e => e.1.bits nativeBit).nodup_iff.mpr t.hops.entries.uniq
    rw [List.map_map] at hbits
    have hcomp : (fun e : Lpm.Key U32 × NextHops => e.1.bits nativeBit) ∘
          (fun e : ForwadingTableKey × ForwadingTableValue => (lpmKey e.1.prefixLen e.1.prefixIp, e.2.nextHops)) =
        (fun x : U32 × U32 => (lpmKey x.2 x.1).bits nativeBit) ∘ fun e => (e.1.prefixIp, e.1.prefixLen) := rfl
    rw [hcomp, ← List.map_map] at hbits
    exact List.Nodup.of_map _ hbits
  · obtain ⟨e, he, rfl⟩ := List.mem_map.mp hx
    exact ⟨e.2.nextHops, hp.mem_iff.mp (List.mem_map.mpr ⟨e, he, rfl⟩)⟩
  · obtain ⟨e, he, hk⟩ := List.mem_map.mp (hp.mem_iff.mpr hv)
    refine List.mem_map.mpr ⟨e, he, ?_⟩
    have hl := congrArg (·.1.len) hk
    have hd := congrArg (·.1.data) hk
    exact Prod.ext hd (BitVec.eq_of_toNat_eq hl)

theorem routes_listed {t : Both} {lr : List (RoutingTableKey × RoutingTableValue)} (h : Table.lists t.routes lr) :
    (lr.map fun e => (e.1.prefixIp, e.1.prefixLen.setWidth 32)).Nodup ∧
    ∀ x : U32 × U32, x ∈ lr.map (fun e => (e.1.prefixIp, e.1.prefixLen.setWidth 32)) ↔
      ∃ l : U8, x.2 = l.setWidth 32 ∧ (t.routes.entries.lookup (x.1, l)).isSome := by
  have hl : t.routes.entries.Lists (lr.map fun e => ((e.1.prefixIp, e.1.prefixLen), e.2.route)) := h
  refine ⟨?_, fun x => ⟨fun hx => ?_, fun ⟨l, hx, hs⟩ => ?_⟩⟩
  · have hn := hl.nodup
    rw [List.map_map] at hn
    have hinj : Function.Injective fun k : PrefixKey => (k.1, k.2.setWidth 32) := by
      intro a b hab
      obtain ⟨h1, h2⟩ := Prod.ext_iff.mp hab
      have h2 : a.2.setWidth 32 = b.2.setWidth 32 := h2
      refine Prod.ext h1 (BitVec.eq_of_toNat_eq ?_)
      rw [← setWidth_toNat a.2, h2, setWidth_toNat]
    have hm := hn.map hinj
    rw [List.map_map] at hm
    exact hm
  · obtain ⟨e, he, rfl⟩ := List.mem_map.mp hx
    refine ⟨e.1.prefixLen, rfl, ?_⟩
    rw [hl.mem.mp (List.mem_map.mpr ⟨e, he, rfl⟩)]
    rfl
  · obtain ⟨r, hr⟩ := Option.isSome_iff_exists.mp hs
    obtain ⟨e, he, hk⟩ := List.mem_map.mp (hl.mem.mpr hr)
    have h1 : e.1.prefixIp = x.1 := congrArg (·.1.1) hk
    have h2 : e.1.prefixLen = l := congrArg (·.1.2) hk
    exact List.mem_map.mpr ⟨e, he, Prod.ext h1 (by rw [hx, ← h2])⟩

/-- Over keys of at most 32 bits, none of which overlap, the contract holds. -/
theorem holds_of_separate (hl : ∀ k, K k → k.2.toNat ≤ 32) (hK : ∀ k k', K k → K k' → ¬ Overlap k k') {ops : List Op}
    (h : Within ops) (hu : Uses K ops) : Holds ops := by
  have hkey : ∀ pre k post, ops = pre ++ .get k :: post → K k ∧ Within pre ∧ Uses K pre := by
    intro pre k post he
    subst he
    exact ⟨hu (.get k) (by simp) k (by simp [Op.keys]), h.left, hu.left⟩
  refine ⟨fun pre k post he => ?_, fun pre k post he => ?_, fun pre k post he => ?_, fun pre post he lf lr hlf hlr => ?_⟩
  · obtain ⟨hk, hw, hp⟩ := hkey pre k post he
    rw [hops_exact hK hw hp hk (hl k hk), routes_exact, Option.isSome_map, Option.isSome_map]
  · obtain ⟨hk, hw, hp⟩ := hkey pre k post he
    rw [hops_exact hK hw hp hk (hl k hk), routes_exact]
    refine ⟨fun v hv => ?_, fun r hr => ?_⟩
    · obtain ⟨⟨r, v'⟩, hx, rfl⟩ := Option.map_eq_some_iff.mp hv
      exact ⟨r, (LastWrite.value_eq_some effect).mp hx⟩
    · obtain ⟨⟨r', v⟩, hx, rfl⟩ := Option.map_eq_some_iff.mp hr
      exact ⟨v, (LastWrite.value_eq_some effect).mp hx⟩
  · obtain ⟨hk, hw, hp⟩ := hkey (pre ++ [.remove k]) k post (by rw [he]; simp)
    have hnone : value effect (pre ++ [.remove k]) k = none := by
      rw [LastWrite.value_snoc, effect_remove, if_pos rfl]
      rfl
    rw [hops_exact hK hw hp hk (hl k hk), routes_exact, hnone]
    exact ⟨rfl, rfl⟩
  · subst he
    have hw : Within pre := h.left
    have hp : Uses K pre := hu.left
    obtain ⟨hnf, hmf⟩ := hops_listed hlf
    obtain ⟨hnr, hmr⟩ := routes_listed hlr
    refine ⟨hnf, hnr, fun x => ?_⟩
    rw [hmf, hmr]
    refine ⟨fun ⟨v, hv⟩ => ?_, fun ⟨l, hl, hs⟩ => ?_⟩
    · obtain ⟨k, r, -, hkey, hval⟩ := entry_added hK hw hp hv
      have hlen : x.2.toNat = k.2.toNat := by
        rw [← trieKey_len, ← hkey]
        rfl
      have hdat : x.1 = k.1 := congrArg Lpm.Key.data hkey
      refine ⟨k.2, BitVec.eq_of_toNat_eq (by rw [setWidth_toNat, hlen]), ?_⟩
      rw [routes_lookup, hdat, hval]
      rfl
    · rw [routes_lookup, Option.isSome_map] at hs
      obtain ⟨⟨r, v⟩, hval⟩ := Option.isSome_iff_exists.mp hs
      obtain ⟨pre', op, post', he, hop, -⟩ := (LastWrite.value_eq_some effect).mp hval
      have hk : K (x.1, l) := hp op (by rw [he]; simp) _ (effect_some hop)
      have hentry := hops_entry hw ((trieKey (x.1, l)).bits nativeBit)
      rw [value_bits hK hp hk, hval] at hentry
      refine ⟨v, ?_⟩
      rw [hl]
      exact (Lpm.Trie.entry_eq_some.mp hentry).1

end separate

/-! ## Keys that overlap -/

theorem exec_length (t : Both) (op : Op) :
    (exec t op).hops.entries.entries.length ≤ t.hops.entries.entries.length + 1 := by
  cases op with
  | add k r v => exact Lpm.Trie.insert_length _ _ _
  | remove k => exact Nat.le_succ_of_le (Lpm.Trie.remove_length _ _)
  | get k => exact Nat.le_succ _
  | list => exact Nat.le_succ _

theorem run_length (ops : List Op) : (run ops).hops.entries.entries.length ≤ ops.length := by
  induction ops using List.reverseRecOn with
  | nil => exact Nat.le_refl _
  | append_singleton ops op ih =>
    rw [run_snoc, List.length_append, List.length_singleton]
    exact Nat.le_trans (exec_length _ _) (Nat.succ_le_succ ih)

/-- No more operations than the trie has room for, with keys short enough, are never
    refused. -/
theorem within_of_length {ops : List Op} (hl : Uses (fun k => k.2.toNat ≤ 32) ops) (hn : ops.length ≤ maxEntries) :
    Within ops := by
  intro pre k r v post he
  subst he
  have hpre := run_length pre
  rw [List.length_append, List.length_cons] at hn
  rw [Lpm.Trie.insert_isSome_iff]
  refine ⟨?_, Or.inr (by omega)⟩
  rw [trieKey_len]
  exact hl (.add k r v) (by simp) k (by simp [Op.keys])

theorem within_single {k k' : PrefixKey} (hk : k.2.toNat ≤ 32) (hk' : k'.2.toNat ≤ 32) (r : Route) (v : NextHops) :
    Within [.add k r v, .get k'] := by
  refine within_of_length (fun op hop k₁ hk₁ => ?_) (show 2 ≤ 2048 by decide)
  rcases List.mem_pair.mp hop with rfl | rfl
  · rw [List.mem_singleton.mp hk₁]
    exact hk
  · rw [List.mem_singleton.mp hk₁]
    exact hk'

/-- Of two keys that overlap, the forwarding table finds the one under the other. -/
theorem not_holds {k k' : PrefixKey} (hk' : k'.2.toNat ≤ 32) (ho : Overlap k k') (r : Route) (v : NextHops) :
    ¬ Holds [.add k r v, .get k'] := by
  intro h
  obtain ⟨hne, hl, hc⟩ := ho
  have hw : Within [.add k r v] := @Within.left [.add k r v] [.get k'] (within_single (by omega) hk' r v)
  have hfound := h.found [.add k r v] k' [] rfl
  have hroute : getRoute (run [.add k r v]) k' = none := by
    have hv : value effect [.add k r v] k' = none := by
      show (effect (.add k r v) k').getD none = none
      rw [effect_add, if_neg fun e => hne e.symm]
      rfl
    rw [routes_exact, hv]
    rfl
  have hhops : getHops (run [.add k r v]) k' ≠ none := by
    intro hnone
    have hlong := hops_longest hw hk'
    rw [hnone] at hlong
    have hlen : k.2.toNat ≤ ((trieKey k').bits nativeBit).length := by
      show _ ≤ (Lpm.bits nativeBit (trieKey k').len _).length
      rw [Lpm.bits_length, trieKey_len]
      exact hl
    have htake : ((trieKey k').bits nativeBit).take k.2.toNat = (trieKey k).bits nativeBit := by
      rw [← trieKey_len k]
      exact (Lpm.bits_take nativeBit (by rw [trieKey_len, trieKey_len]; exact hl) _).trans hc.symm
    have hval : value bitsEffect [.add k r v] ((trieKey k).bits nativeBit) = some (k, v) := by
      show (bitsEffect (.add k r v) _).getD none = _
      rw [bitsEffect_add, if_pos rfl]
      rfl
    have hcontra := hlong k.2.toNat hlen
    simp only [htake, hval] at hcontra
    cases hcontra
  rw [hroute] at hfound
  exact absurd (hfound.mp (Option.isSome_iff_ne_none.mpr hhops)) (by simp)

def oneRoute : Route := ⟨.local, []⟩

def someHops : NextHops := Vector.replicate 32 ⟨0x0a000001, 1, .zero, .zero, 1⟩

/-- The route table finds what was added last under exactly the key, the forwarding table
    what was added last under the longest prefix of it that is stored, or nothing if the key
    has more than 32 bits; and keys of at most 32 bits may be used on the two as on one
    table exactly if no two of them overlap. -/
theorem tables_contract_iff {K : PrefixKey → Prop} (hK : ∀ k, K k → k.2.toNat ≤ 32) :
    (∀ ops k, getRoute (run ops) k = (value effect ops k).map (·.1)) ∧
    (∀ ops k, Within ops → k.2.toNat ≤ 32 →
      LongestMatch (fun p => (value bitsEffect ops p).map (·.2)) ((trieKey k).bits nativeBit) (getHops (run ops) k)) ∧
    (∀ ops k, 32 < k.2.toNat → getHops (run ops) k = none) ∧
    ((∀ ops, Uses K ops → Within ops → Holds ops) ↔ ∀ k k', K k → K k' → ¬ Overlap k k') := by
  refine ⟨routes_exact, fun _ _ h hk => hops_longest h hk, fun ops _ hk => hops_long hk (run ops), fun h k k' hk hk' ho => ?_,
    fun h ops hu hw => ?_⟩
  · have hu : Uses K [.add k oneRoute someHops, .get k'] := by
      intro op hop k₁ hk₁
      rcases List.mem_cons.mp hop with rfl | hop
      · rw [List.mem_singleton.mp hk₁]
        exact hk
      · rw [List.mem_singleton.mp hop] at hk₁
        rw [List.mem_singleton.mp hk₁]
        exact hk'
    exact not_holds (hK k' hk') ho _ _ (h _ hu (within_single (hK k hk) (hK k' hk') _ _))
  · exact holds_of_separate hK h hw hu

/-- 10.1.0.0/16, 10.2.0.1/32, and the same address with a length that is too long. -/
def netKey : PrefixKey := (0x0a010000, 16)

def hostKey : PrefixKey := (0x0a020001, 32)

def longKey : PrefixKey := (0x0a020001, 33)

def history : List Op :=
  [.add netKey oneRoute someHops, .add hostKey oneRoute someHops, .get hostKey, .remove netKey, .get netKey, .list]

theorem tables_contract_iff_two : Within history ∧ Holds history ∧
    getRoute (run history) hostKey = some oneRoute ∧ getRoute (run history) netKey = none ∧
    getHops (run history) hostKey = some someHops ∧ getHops (run history) longKey = none := by
  have hK : ∀ k, k = netKey ∨ k = hostKey → k.2.toNat ≤ 32 := by
    rintro k (rfl | rfl)
    · decide
    · decide
  obtain ⟨hroutes, hlongest, hlong, hholds⟩ := tables_contract_iff hK
  have hu : Uses (fun k => k = netKey ∨ k = hostKey) history := by
    simp only [Uses, history, Op.keys, List.forall_mem_cons]
    simp
  have hw : Within history := within_of_length (fun op hop k hk => hK k (hu op hop k hk)) (show 6 ≤ 2048 by decide)
  have hsep : ∀ k k', k = netKey ∨ k = hostKey → k' = netKey ∨ k' = hostKey → ¬ Overlap k k' := by
    rintro k k' (rfl | rfl) (rfl | rfl) <;> exact fun h => absurd h (by unfold Overlap; decide)
  refine ⟨hw, hholds.mpr hsep history hu hw, by rw [hroutes]; rfl, by rw [hroutes]; rfl, ?_, hlong _ _ (by decide)⟩
  refine (hlongest history hostKey hw (by decide)).unique ⟨32, by decide, by rfl, fun j hj hjl => ?_⟩
  exact absurd hjl (Nat.not_le.mpr hj)

/-- 10.0.0.0/8 is added, and 10.0.0.0/16 is then found in one table and not in the other. -/
theorem prefix_found_in_one : Within [.add (0x0a000000, 8) oneRoute someHops, .get (0x0a000000, 16)] ∧
    ¬ Holds [.add (0x0a000000, 8) oneRoute someHops, .get (0x0a000000, 16)] :=
  ⟨within_single (by decide) (by decide) _ _, not_holds (by decide) ⟨by decide, by decide, by decide⟩ _ _⟩

end Contract

end FabricRs.State
