/-
  FabricRs.Ebpf.Lookup — user space's forwarding table and the XDP program's lookups in it.

  An IPv4 prefix is the top bits of an address (`ipBit`). User space stores a prefix as a
  native `u32`, and the kernel reads a stored key byte by byte from the low end
  (`nativeBit`), so on a little-endian machine it compares the last octet of an address
  first. Only a key of no bits or of all of them covers the same addresses either way.

  - `runAll_map`: the trie holds what the calls installed, by its own bits.
  - `covers_ext`: a key of another length covers some address in one order only.
  - `xdp_lookup_iff`: which keys user space and the XDP program agree on.
-/

import FabricRs.Ebpf.Xdp

namespace FabricRs.Ebpf

open State
open Wire (Bytes)
open Lpm (bits installed LongestMatch)

/-! ## User space -/

/-- A `ForwardingTable::add` or `ForwardingTable::remove`. -/
inductive Call where
  | add (k : ForwadingTableKey) (v : ForwadingTableValue)
  | remove (k : ForwadingTableKey)

namespace Call

def key : Call → ForwadingTableKey
  | add k _ => k
  | remove k => k

def run (t : ForwardingTable) : Call → ForwardingTable
  | add k v => Table.add t k v
  | remove k => Table.remove t k

/-- The command on the trie. -/
def op : Call → Lpm.Op U32 NextHops
  | add k v => .add (lpmKey k.prefixLen k.prefixIp) v.nextHops
  | remove k => .remove (lpmKey k.prefixLen k.prefixIp)

theorem op_key (c : Call) : c.op.key = lpmKey c.key.prefixLen c.key.prefixIp := by
  cases c <;> rfl

end Call

/-- A program just loaded, then the calls. -/
def runAll (calls : List Call) : ForwardingTable := calls.foldl Call.run ⟨noRoutes⟩

/-- The calls stay within the trie's capacity: no add is refused. -/
def Fits (calls : List Call) : Prop :=
  ∀ pre k v post, calls = pre ++ .add k v :: post →
    ((runAll pre).entries.insert (lpmKey k.prefixLen k.prefixIp) v.nextHops).isSome

theorem runAll_snoc (calls : List Call) (c : Call) : runAll (calls ++ [c]) = c.run (runAll calls) := by
  simp [runAll]

theorem Fits.left {calls rest : List Call} (h : Fits (calls ++ rest)) : Fits calls := by
  intro pre k v post he
  exact h pre k v (post ++ rest) (by rw [he]; simp)

/-- The trie holds what the calls installed, by the bits it compares. -/
theorem runAll_map {calls : List Call} (h : Fits calls) :
    (runAll calls).entries.map = installed nativeBit (calls.map Call.op) := by
  induction calls using List.reverseRecOn with
  | nil => exact Lpm.Trie.empty_map
  | append_singleton calls c ih =>
    have ih := ih h.left
    rw [List.map_append, List.map_singleton, Lpm.installed_snoc, ← ih, runAll_snoc]
    cases c with
    | add k v =>
      obtain ⟨t, ht⟩ := Option.isSome_iff_exists.mp (h calls k v [] rfl)
      have hrun : (Call.run (runAll calls) (.add k v)).entries = t := by
        show Option.getD _ _ = t
        rw [ht]
        rfl
      rw [hrun, Lpm.Trie.insert_map ht]
      rfl
    | remove k => exact Lpm.Trie.remove_map _ _

/-! ## Two bit orders -/

/-- Bit `i` of an IPv4 address, from the top. -/
def ipBit (x : U32) (i : Nat) : Bool := x.getMsbD i

theorem ipBit_eq (x : U32) {i : Nat} (h : i < 32) : ipBit x i = x.getLsbD (31 - i) := by
  unfold ipBit
  rw [BitVec.getMsbD_eq_getLsbD, decide_eq_true h, Bool.true_and]

theorem covers_zero {bit : U32 → Nat → Bool} {k : Lpm.Key U32} (h : k.len = 0) (d : U32) : k.Covers bit d := by
  show bits bit k.len k.data = bits bit k.len d
  rw [h]
  rfl

theorem covers_native {k : Lpm.Key U32} (h : k.len = 32) (d : U32) : k.Covers nativeBit d ↔ k.data = d := by
  show bits nativeBit k.len k.data = bits nativeBit k.len d ↔ _
  rw [h, Lpm.bits_eq_iff]
  constructor
  · intro he
    apply BitVec.eq_of_getLsbD_eq
    intro j hj
    have hi := he (8 * (j / 8) + (7 - j % 8)) (by omega)
    have hj' : 8 * ((8 * (j / 8) + (7 - j % 8)) / 8) + (7 - (8 * (j / 8) + (7 - j % 8)) % 8) = j := by omega
    unfold nativeBit at hi
    rwa [hj'] at hi
  · intro he i _
    rw [he]

theorem covers_ip {k : Lpm.Key U32} (h : k.len = 32) (d : U32) : k.Covers ipBit d ↔ k.data = d := by
  show bits ipBit k.len k.data = bits ipBit k.len d ↔ _
  rw [h, Lpm.bits_eq_iff]
  constructor
  · intro he
    apply BitVec.eq_of_getLsbD_eq
    intro j hj
    have hi := he (31 - j) (by omega)
    rw [ipBit_eq _ (by omega), ipBit_eq _ (by omega)] at hi
    have hj' : 31 - (31 - j) = j := by omega
    rwa [hj'] at hi
  · intro he i _
    rw [he]

/-- `x` with bit `j`, counted from the least significant, the other way. -/
def flip (x : U32) (j : Nat) : U32 := x ^^^ BitVec.twoPow 32 j

theorem getLsbD_flip (x : U32) {i j : Nat} (hj : j < 32) :
    (flip x j).getLsbD i = if i = j then !x.getLsbD i else x.getLsbD i := by
  unfold flip
  rw [BitVec.getLsbD_xor, BitVec.getLsbD_twoPow]
  by_cases h : i = j
  · subst h
    simp [hj]
  · have h' : ¬ j = i := fun e => h e.symm
    simp [h, h']

/-- A key that is neither empty nor a whole address covers some address in one order and
    not in the other: one that differs in the order's own first bit, which the other order
    reads late or not at all. -/
theorem covers_ext {k : Lpm.Key U32} (h0 : 0 < k.len) (h32 : k.len < 32) :
    ∃ d, ¬ (k.Covers nativeBit d ↔ k.Covers ipBit d) := by
  by_cases h : k.len ≤ 24
  · -- the top bit of the last octet: first for the kernel, the 25th of the address
    refine ⟨flip k.data 7, fun he => ?_⟩
    have hip : k.Covers ipBit (flip k.data 7) := by
      show bits ipBit k.len k.data = bits ipBit k.len _
      rw [Lpm.bits_eq_iff]
      intro i hi
      rw [ipBit_eq _ (by omega), ipBit_eq _ (by omega), getLsbD_flip _ (by decide), if_neg (by omega)]
    have hnat : bits nativeBit k.len k.data = bits nativeBit k.len (flip k.data 7) := he.mpr hip
    have h7 := (Lpm.bits_eq_iff _).mp hnat 0 h0
    unfold nativeBit at h7
    rw [getLsbD_flip _ (by decide), if_pos (by decide)] at h7
    simp at h7
  · -- the low bit of the first octet: last for the kernel, the 8th of the address
    refine ⟨flip k.data 24, fun he => ?_⟩
    have hnat : k.Covers nativeBit (flip k.data 24) := by
      show bits nativeBit k.len k.data = bits nativeBit k.len _
      rw [Lpm.bits_eq_iff]
      intro i hi
      unfold nativeBit
      rw [getLsbD_flip _ (by decide), if_neg (by omega)]
    have hip : bits ipBit k.len k.data = bits ipBit k.len (flip k.data 24) := he.mp hnat
    have h7 := (Lpm.bits_eq_iff _).mp hip 7 (by omega)
    rw [ipBit_eq _ (by decide), ipBit_eq _ (by decide), getLsbD_flip _ (by decide), if_pos (by decide)] at h7
    simp at h7

/-! ## Agreement -/

/-- The XDP program's lookup of an IPv4 packet for `d` finds what the calls installed under
    the longest prefix of the address `d`. -/
def Correct (calls : List Call) (ctx : Bytes) (d : U32) : Prop :=
  ∃ r, routeLookup (runAll calls).entries ctx = some r ∧
    LongestMatch (installed ipBit (calls.map Call.op)) (bits ipBit 32 d) r

/-- What the lookup finds, by the trie's own bits. -/
theorem lookup_native {calls : List Call} (h : Fits calls) {ctx : Bytes} {d : U32} (hd : IsIpv4 ctx d) :
    ∃ r, routeLookup (runAll calls).entries ctx = some r ∧
      LongestMatch (installed nativeBit (calls.map Call.op)) (bits nativeBit 32 d) r := by
  refine ⟨(runAll calls).entries.get (lpmKey 32 d), by unfold routeLookup; rw [parse_ipv4 hd], ?_⟩
  rw [← runAll_map h]
  exact Lpm.Trie.get_longest _ (show 32 ≤ 32 by decide)

/-- For the address `d` the longest prefix is the same, or the same next hops are under it,
    by the trie's bits and by the address's. -/
def OrdersAgree (calls : List Call) (d : U32) : Prop :=
  ∃ r, LongestMatch (installed nativeBit (calls.map Call.op)) (bits nativeBit 32 d) r ∧
    LongestMatch (installed ipBit (calls.map Call.op)) (bits ipBit 32 d) r

theorem correct_iff {calls : List Call} (h : Fits calls) {ctx : Bytes} {d : U32} (hd : IsIpv4 ctx d) :
    Correct calls ctx d ↔ OrdersAgree calls d := by
  obtain ⟨r, hr, hm⟩ := lookup_native h hd
  refine ⟨fun ⟨r', hr', hm'⟩ => ?_, fun ⟨r', hm', hip⟩ => ?_⟩
  · rw [hr, Option.some.injEq] at hr'
    subst hr'
    exact ⟨r, hm, hm'⟩
  · rw [hm'.unique hm] at hip
    exact ⟨r, hr, hip⟩

theorem orders_agree_of_covers {calls : List Call} {d : U32}
    (hc : ∀ c ∈ calls, c.op.key.Covers nativeBit d ↔ c.op.key.Covers ipBit d)
    {r : Option NextHops} (hm : LongestMatch (installed nativeBit (calls.map Call.op)) (bits nativeBit 32 d) r) :
    OrdersAgree calls d := by
  refine ⟨r, hm, (LongestMatch.congr (by simp) fun n hn => ?_).mp hm⟩
  have hn : n ≤ 32 := by simpa using hn
  rw [Lpm.bits_take _ hn, Lpm.bits_take _ hn]
  refine Lpm.installed_congr (fun op hop => ?_) n
  obtain ⟨c, hcm, rfl⟩ := List.mem_map.mp hop
  exact hc c hcm

/-- A packet for any address. -/
def packetTo (d : U32) : Bytes :=
  List.replicate 12 0 ++ (Wire.u16be.enc 0x0800 ++ (List.replicate 16 0 ++ (Wire.u32be.enc d ++ [])))

theorem packetTo_ipv4 (d : U32) : IsIpv4 (packetTo d) d := by
  refine ⟨?_, ?_, ?_⟩
  · simp [packetTo, Wire.u32be, Wire.u16be]
  · unfold packetTo
    rw [Wire.get_append _ _ _ _ _ (by simp)]
  · have hsplit : packetTo d =
        (List.replicate 12 0 ++ (Wire.u16be.enc 0x0800 ++ List.replicate 16 0)) ++ (Wire.u32be.enc d ++ []) := by
      simp [packetTo]
    rw [hsplit, Wire.get_append _ _ _ _ _ (by simp [Wire.u16be])]

def oneHop : NextHops := Vector.replicate 32 ⟨0x0a000001, 1, .zero, .zero, 1⟩

theorem run_length (t : ForwardingTable) (c : Call) : (c.run t).entries.entries.length ≤ t.entries.entries.length + 1 := by
  cases c with
  | add k v => exact Lpm.Trie.insert_length _ _ _
  | remove k => exact Nat.le_succ_of_le (Lpm.Trie.remove_length _ _)

theorem runAll_length (calls : List Call) : (runAll calls).entries.entries.length ≤ calls.length := by
  induction calls using List.reverseRecOn with
  | nil => exact Nat.le_refl _
  | append_singleton calls c ih =>
    rw [runAll_snoc, List.length_append, List.length_singleton]
    exact Nat.le_trans (run_length _ _) (Nat.succ_le_succ ih)

theorem fits_of_length {calls : List Call} (hl : ∀ c ∈ calls, c.key.prefixLen.toNat ≤ 32)
    (hn : calls.length ≤ maxEntries) : Fits calls := by
  intro pre k v post he
  subst he
  have hpre := runAll_length pre
  rw [List.length_append, List.length_cons] at hn
  exact Lpm.Trie.insert_isSome_iff.mpr ⟨hl (.add k v) (by simp), Or.inr (by omega)⟩

theorem fits_single (k : ForwadingTableKey) (hk : k.prefixLen.toNat ≤ 32) (v : ForwadingTableValue) : Fits [.add k v] :=
  fits_of_length (fun c hc => by rw [List.mem_singleton.mp hc]; exact hk) (show 1 ≤ 2048 by decide)

/-- With one prefix installed the orders agree only on addresses it covers alike. -/
theorem orders_agree_single {k : ForwadingTableKey} (hk : k.prefixLen.toNat ≤ 32) {d : U32}
    (h : OrdersAgree [.add k ⟨oneHop⟩] d) :
    (lpmKey k.prefixLen k.prefixIp).Covers nativeBit d ↔ (lpmKey k.prefixLen k.prefixIp).Covers ipBit d := by
  obtain ⟨r, hn, hi⟩ := h
  have h1 := hn.unique (Lpm.longestMatch_single nativeBit hk d)
  have h2 := hi.unique (Lpm.longestMatch_single ipBit hk d)
  rw [h1] at h2
  by_cases hc : (lpmKey k.prefixLen k.prefixIp).Covers ipBit d
  · rw [if_pos hc] at h2
    by_cases hn : (lpmKey k.prefixLen k.prefixIp).Covers nativeBit d
    · exact ⟨fun _ => hc, fun _ => hn⟩
    · rw [if_neg hn] at h2
      cases h2
  · rw [if_neg hc] at h2
    by_cases hn : (lpmKey k.prefixLen k.prefixIp).Covers nativeBit d
    · rw [if_pos hn] at h2
      cases h2
    · exact ⟨fun h => absurd h hn, fun h => absurd h hc⟩

/-- The keys of `K`, of at most 32 bits, are safe to use exactly if each has no bits or all
    of them. -/
theorem agree_iff {K : U32 × U32 → Prop} (hK : ∀ p n, K (p, n) → n.toNat ≤ 32) :
    (∀ calls ctx d, (∀ c ∈ calls, K (c.key.prefixIp, c.key.prefixLen)) → Fits calls → IsIpv4 ctx d →
      Correct calls ctx d) ↔ ∀ p n, K (p, n) → n = 0 ∨ n = 32 := by
  constructor
  · intro h p n hp
    by_cases h0 : n = 0
    · exact Or.inl h0
    by_cases h32 : n = 32
    · exact Or.inr h32
    have hle := hK p n hp
    have hpos : 0 < n.toNat := Nat.pos_of_ne_zero fun e => h0 (BitVec.eq_of_toNat_eq e)
    have hlt : n.toNat < 32 := Nat.lt_of_le_of_ne hle fun e => h32 (BitVec.eq_of_toNat_eq e)
    obtain ⟨d, hd⟩ := covers_ext (k := lpmKey n p) hpos hlt
    have hfits : Fits [.add ⟨p, n⟩ ⟨oneHop⟩] := fits_single _ hle _
    have hc : Correct [.add ⟨p, n⟩ ⟨oneHop⟩] (packetTo d) d := by
      refine h _ _ d (fun c hc => ?_) hfits (packetTo_ipv4 d)
      rw [List.mem_singleton.mp hc]
      exact hp
    exact absurd (orders_agree_single (k := ⟨p, n⟩) hle ((correct_iff hfits (packetTo_ipv4 d)).mp hc)) hd
  · intro h calls ctx d hcalls hfits hd
    obtain ⟨r, -, hm⟩ := lookup_native hfits hd
    refine (correct_iff hfits hd).mpr (orders_agree_of_covers (fun c hc => ?_) hm)
    rw [c.op_key]
    rcases h _ _ (hcalls c hc) with h0 | h32
    · have hl : (lpmKey c.key.prefixLen c.key.prefixIp).len = 0 := congrArg BitVec.toNat h0
      exact ⟨fun _ => covers_zero hl d, fun _ => covers_zero hl d⟩
    · have hl : (lpmKey c.key.prefixLen c.key.prefixIp).len = 32 := congrArg BitVec.toNat h32
      rw [covers_native hl, covers_ip hl]

/-- A lookup is right exactly if for its address the two orders agree; and of the keys user
    space may use, they agree on whatever is installed and for every address exactly if
    each key has no bits or all of them. -/
theorem xdp_lookup_iff {K : U32 × U32 → Prop} (hK : ∀ p n, K (p, n) → n.toNat ≤ 32) :
    (∀ calls ctx d, Fits calls → IsIpv4 ctx d → (Correct calls ctx d ↔ OrdersAgree calls d)) ∧
    ((∀ calls ctx d, (∀ c ∈ calls, K (c.key.prefixIp, c.key.prefixLen)) → Fits calls → IsIpv4 ctx d →
      Correct calls ctx d) ↔ ∀ p n, K (p, n) → n = 0 ∨ n = 32) :=
  ⟨fun _ _ _ hfits hd => correct_iff hfits hd, agree_iff hK⟩

def otherHop : NextHops := Vector.replicate 32 ⟨0x0a000002, 2, .zero, .zero, 1⟩

/-- A default route and a host route. -/
def defaultAndHost : List Call := [.add ⟨0, 0⟩ ⟨oneHop⟩, .add ⟨0x0a010203, 32⟩ ⟨otherHop⟩]

/-- Every packet finds what it should, and one for 10.1.2.3 the host route. -/
theorem xdp_lookup_iff_host : Fits defaultAndHost ∧ (∀ ctx d, IsIpv4 ctx d → Correct defaultAndHost ctx d) ∧
    LongestMatch (installed ipBit (defaultAndHost.map Call.op)) (bits ipBit 32 0x0a010203) (some otherHop) ∧
    OrdersAgree defaultAndHost 0x0a010203 := by
  obtain ⟨heach, hall⟩ := xdp_lookup_iff (K := fun k => k = (0, 0) ∨ k = (0x0a010203, 32)) fun p n h => by
    rcases h with h | h <;> cases h <;> decide
  have hkeys : ∀ c ∈ defaultAndHost, (c.key.prefixIp, c.key.prefixLen) = ((0, 0) : U32 × U32) ∨
      (c.key.prefixIp, c.key.prefixLen) = ((0x0a010203, 32) : U32 × U32) := by
    simp [defaultAndHost, Call.key]
  have hfits : Fits defaultAndHost := fits_of_length (by simp [defaultAndHost, Call.key]) (show 2 ≤ 2048 by decide)
  have hcorrect : ∀ ctx d, IsIpv4 ctx d → Correct defaultAndHost ctx d := fun ctx d hd =>
    hall.mpr (fun p n h => by rcases h with h | h <;> cases h <;> decide) _ ctx d hkeys hfits hd
  have hp := packetTo_ipv4 0x0a010203
  refine ⟨hfits, hcorrect, ⟨32, by simp, by rfl, fun j hj hjl => ?_⟩, (heach _ _ _ hfits hp).mp (hcorrect _ _ hp)⟩
  rw [Lpm.bits_length] at hjl
  omega

/-- 10.0.0.0/8 is installed, and a packet to 10.1.2.3 finds nothing. -/
theorem xdp_lookup_misses : Fits [.add ⟨0x0a000000, 8⟩ ⟨oneHop⟩] ∧ IsIpv4 (packetTo 0x0a010203) 0x0a010203 ∧
    routeLookup (runAll [.add ⟨0x0a000000, 8⟩ ⟨oneHop⟩]).entries (packetTo 0x0a010203) = some none ∧
    ¬ Correct [.add ⟨0x0a000000, 8⟩ ⟨oneHop⟩] (packetTo 0x0a010203) 0x0a010203 := by
  have hp := packetTo_ipv4 0x0a010203
  refine ⟨fits_single _ (by decide) _, hp, ?_, fun h => ?_⟩
  · unfold routeLookup
    rw [parse_ipv4 hp]
    rfl
  · exact absurd (orders_agree_single (by decide) ((correct_iff (fits_single _ (by decide) _) hp).mp h)) (by decide)

end FabricRs.Ebpf
