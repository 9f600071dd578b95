/-
  FabricRs.State.Listing — what the CLI prints of a table (`Display` of `KeyValue` and of
  what it holds, the prompt's `println!`).

  A neighbor's interfaces are printed in the order its map iterates in, so one neighbor has
  many texts. There are no counts and nothing is quoted: where an entry ends shows from
  what the next line starts with, an interface's or a next hop's with tabs, an entry's with
  an `i` or a digit.

  - `fmt_readable`: a key and value's text tells both, whatever entries follow.
  - `listing_read_back`: what is printed of a table tells its entries.
-/

import FabricRs.Display
import FabricRs.State.Actor

namespace FabricRs.State

open Text (Readable Any NoDigit Rest)

/-! ## Texts -/

def NeighborInterface.fmt (i : NeighborInterface) : String :=
  "\n\t\t\tneighbor_ip: " ++ (Ipv4Addr.ofU32 i.neighborIp).fmt ++ "\n\t\t\tneighbor_mac: " ++ i.neighborMac.fmt ++
    "\n\t\t\tlocal_ip: " ++ (Ipv4Addr.ofU32 i.localIp).fmt ++ "\n\t\t\tlocal_mac: " ++ i.localMac.fmt ++
    "\n\t\t\tlocal_ifidx: " ++ toString i.localIfidx.toNat

/-- An interface of a neighbor and the MAC it is under. -/
def fmtInterface (e : MacAddr × NeighborInterface) : String := "\n\t\tmac: " ++ (e.1.fmt ++ "\n\t\tinterface: " ++ e.2.fmt)

/-- The loop of `Neighbor`'s `Display`, in one of its map's orders. -/
def Neighbor.Fmt (n : Neighbor) (s : String) : Prop :=
  ∃ l, n.interfaces.Lists l ∧ s = l.foldl (fun s e => s ++ fmtInterface e) ""

def RouteOrigin.fmt : RouteOrigin → String
  | .local => "LOCAL"
  | .remote => "REMOTE"

def RouteNextHop.fmt (nh : RouteNextHop) : String :=
  "\n\t\t\toriginator_id: " ++ (toString nh.originatorId.toNat ++ "\n\t\t\tgw: " ++ (Ipv4Addr.ofU32 nh.ip).fmt ++
    "\n\t\t\thops: " ++ toString nh.hops.toNat ++ "\n\t\t\tifidx: " ++ toString nh.ifidx.toNat ++
    "\n\t\t\tsrc_mac: " ++ nh.srcMac.fmt ++ "\n\t\t\tdst_mac: " ++ nh.dstMac.fmt)

/-- `RouteNextHopList`'s `Display`. -/
def fmtNextHops (nhs : List RouteNextHop) : String := nhs.foldl (fun s nh => s ++ (nh.fmt ++ "\n")) ""

def Route.fmt (r : Route) : String :=
  "\n\t\torigin: " ++ (r.origin.fmt ++ "\n\t\tnext_hops: " ++ fmtNextHops r.nextHops ++ "\n")

/-- A next hop of a forwarding entry. -/
def RNH.fmt (rnh : RNH) : String :=
  "\t\tip " ++ ((Ipv4Addr.ofU32 rnh.ip).fmt ++ "\n\t\tifidx " ++ toString rnh.ifidx.toNat ++ "\n\t\tsrc_mac " ++
    rnh.srcMac.fmt ++ "\n\t\tdst_mac " ++ rnh.dstMac.fmt ++ "\n\t\ttotal_hops " ++ toString rnh.totalNextHops.toNat)

/-- `{}/{} -> \n`. -/
def fmtPrefix (ip len : Nat) : String := toString ip ++ "/" ++ toString len ++ " -> \n"

/-- `KeyValue`'s `Display`. -/
inductive KeyValue.Fmt : KeyValue → String → Prop
  | neighbor (key : U32) (value : Neighbor) (s : String) : value.Fmt s →
      KeyValue.Fmt (.neighbor key value) ("id: " ++ (toString key.toNat ++ ", neighbor: " ++ s))
  | route (key : U32 × U8) (value : Route) :
      KeyValue.Fmt (.route key value) (fmtPrefix key.1.toNat key.2.toNat ++ value.fmt)
  | forwarding (key : U32 × U32) (value : NextHops) :
      KeyValue.Fmt (.forwarding key value)
        (fmtPrefix key.1.toNat key.2.toNat ++ value.toList.foldl (fun s rnh => s ++ rnh.fmt) "")

/-- What `for_each(|kv| println!("{}", kv))` prints. -/
inductive Printed : List KeyValue → String → Prop
  | nil : Printed [] ""
  | cons {kv kvs s rest} : kv.Fmt s → Printed kvs rest → Printed (kv :: kvs) (s ++ "\n" ++ rest)

/-! ## Reading them back -/

/-- A new line that does not start with a tab. -/
def Next : Rest := fun r => ∃ l, r = '\n' :: l ∧ ∀ c ∈ l.head?, c ≠ '\t'

theorem Next.noDigit {r : List Char} (h : Next r) : NoDigit r := by
  obtain ⟨l, rfl, -⟩ := h
  exact Text.noDigit_cons rfl l

theorem Next.not_tab {r : List Char} (h : Next r) : ¬ ['\n', '\t'] <+: r := by
  obtain ⟨l', rfl, hl⟩ := h
  rintro ⟨l, he⟩
  cases he
  exact hl '\t' rfl rfl

theorem readable_interface : Readable NoDigit NeighborInterface.fmt := by
  have hip := readable_ofU32.literal "\n\t\t\tneighbor_ip: "
  have hmac := (hip.before "\n\t\t\tneighbor_mac: " rfl (Text.noDigit_cons rfl)).append readable_mac
  have hlip := (hmac.before "\n\t\t\tlocal_ip: " rfl fun _ => trivial).append readable_ofU32
  have hlmac := (hlip.before "\n\t\t\tlocal_mac: " rfl (Text.noDigit_cons rfl)).append readable_mac
  have hall := (hlmac.before "\n\t\t\tlocal_ifidx: " rfl fun _ => trivial).append (readable_word 32)
  refine hall.comp (fun i => ((((i.neighborIp, i.neighborMac), i.localIp), i.localMac), i.localIfidx)) (fun i j h => ?_)
    fun _ => rfl
  cases i
  cases j
  cases h
  rfl

theorem readable_listed : Readable NoDigit fmtInterface := by
  have hmac := readable_mac.before "\n\t\tinterface: " rfl fun _ => trivial
  exact ((hmac.append readable_interface).literal "\n\t\tmac: ").comp (fun e => e) Function.injective_id fun _ => rfl

theorem readable_interfaces : Readable Next fun l : List (MacAddr × NeighborInterface) =>
    l.foldl (fun s e => s ++ fmtInterface e) "" :=
  readable_listed.list (fun _ hr => hr.noDigit) ['\n', '\t'] (fun _ => Text.begins (by decide) _)
    (fun _ => Text.noDigit_cons rfl _) fun _ hr => hr.not_tab

theorem readable_origin : Readable Any RouteOrigin.fmt := by
  intro o o' r r' _ _ he
  cases o <;> cases o'
  · exact ⟨rfl, List.append_cancel_left he⟩
  · cases he
  · cases he
  · exact ⟨rfl, List.append_cancel_left he⟩

theorem readable_nextHop : Readable Any RouteNextHop.fmt := by
  have hgw := ((readable_word 32).before "\n\t\t\tgw: " rfl (Text.noDigit_cons rfl)).append readable_ofU32
  have hhops := (hgw.before "\n\t\t\thops: " rfl (Text.noDigit_cons rfl)).append (readable_word 32)
  have hifidx := (hhops.before "\n\t\t\tifidx: " rfl (Text.noDigit_cons rfl)).append (readable_word 32)
  have hsrc := (hifidx.before "\n\t\t\tsrc_mac: " rfl (Text.noDigit_cons rfl)).append readable_mac
  have hall := (hsrc.before "\n\t\t\tdst_mac: " rfl fun _ => trivial).append readable_mac
  refine (hall.literal "\n\t\t\toriginator_id: ").comp
    (fun nh => (((((nh.originatorId, nh.ip), nh.hops), nh.ifidx), nh.srcMac), nh.dstMac)) (fun n n' h => ?_) fun _ => rfl
  cases n
  cases n'
  cases h
  rfl

theorem readable_nextHops : Readable Next fmtNextHops := by
  have hline : Readable Any fun nh : RouteNextHop => nh.fmt ++ "\n" := readable_nextHop.before "\n" rfl fun _ => trivial
  exact hline.list (fun _ _ => trivial) ['\n', '\t'] (fun _ => Text.begins (Text.begins (by decide) _) _)
    (fun _ => trivial) fun _ hr => hr.not_tab

theorem readable_route : Readable Next Route.fmt := by
  have hhops := (readable_origin.before "\n\t\tnext_hops: " rfl fun _ => trivial).append readable_nextHops
  have hnext : ∀ r, Next r → Next ("\n".toList ++ r) := by
    rintro r ⟨l, rfl, -⟩
    exact ⟨_, rfl, fun c hc => by cases hc; decide⟩
  refine ((hhops.behind "\n" hnext).literal "\n\t\torigin: ").comp (fun r => (r.origin, r.nextHops)) (fun r r' h => ?_)
    fun _ => rfl
  cases r
  cases r'
  cases h
  rfl

theorem readable_rnh : Readable NoDigit RNH.fmt := by
  have hifidx := (readable_ofU32.before "\n\t\tifidx " rfl (Text.noDigit_cons rfl)).append (readable_word 32)
  have hsrc := (hifidx.before "\n\t\tsrc_mac " rfl (Text.noDigit_cons rfl)).append readable_mac
  have hdst := (hsrc.before "\n\t\tdst_mac " rfl fun _ => trivial).append readable_mac
  have hall := (hdst.before "\n\t\ttotal_hops " rfl fun _ => trivial).append (readable_word 32)
  refine (hall.literal "\t\tip ").comp (fun n => ((((n.ip, n.ifidx), n.srcMac), n.dstMac), n.totalNextHops))
    (fun n n' h => ?_) fun _ => rfl
  cases n
  cases n'
  cases h
  rfl

theorem begins_rnh (n : RNH) : ['\t'] <+: n.fmt.toList := Text.begins (by decide) _

theorem readable_rnhs : Readable Next fun value : NextHops => value.toList.foldl (fun s rnh => s ++ rnh.fmt) "" := by
  refine Readable.comp (readable_rnh.list (fun _ hr => hr.noDigit) ['\t'] begins_rnh (fun _ => Text.noDigit_cons rfl _) ?_)
    Vector.toList (fun _ _ => Vector.toList_inj.mp) fun _ => rfl
  rintro r ⟨l, rfl, -⟩ ⟨l', he⟩
  cases he

theorem readable_net : Readable Any fun x : Nat × Nat => fmtPrefix x.1 x.2 :=
  ((Text.readable_nat.before "/" rfl (Text.noDigit_cons rfl)).append Text.readable_nat).before " -> \n" rfl
    (Text.noDigit_cons rfl)

/-! ## Entries -/

theorem readable_neighbor : Readable Next fun x : U32 × List (MacAddr × NeighborInterface) =>
    "id: " ++ (toString x.1.toNat ++ ", neighbor: " ++ x.2.foldl (fun s e => s ++ fmtInterface e) "") :=
  (((readable_word 32).before ", neighbor: " rfl (Text.noDigit_cons rfl)).append readable_interfaces).literal "id: "

/-- Which of the maps an entry is from shows in its first character. -/
theorem prefix_head (ip len : Nat) (t : String) (r : List Char) :
    ∃ c l, (fmtPrefix ip len ++ t).toList ++ r = c :: l ∧ c.isDigit = true := by
  obtain ⟨c, l, hc, hd⟩ := Text.nat_head ip ("/".toList ++ ((toString len).toList ++ (" -> \n".toList ++ (t.toList ++ r))))
  refine ⟨c, l, ?_, hd⟩
  rw [← hc, fmtPrefix]
  simp only [String.toList_append, List.append_assoc]

theorem neighbor_ne_net (t t' : String) (ip len : Nat) (r r' : List Char) :
    ("id: " ++ t).toList ++ r ≠ (fmtPrefix ip len ++ t').toList ++ r' := by
  obtain ⟨c, l, hc, hd⟩ := prefix_head ip len t' r'
  have hid : ['i'] <+: "id: ".toList := by decide
  obtain ⟨l', hi⟩ := Text.begins hid t
  rw [hc, ← hi]
  intro he
  cases he
  cases hd

/-- Behind the prefix a route goes on with a new line, a forwarding entry with a tab. -/
theorem route_ne_rnhs (route : Route) (value : NextHops) (r r' : List Char) :
    route.fmt.toList ++ r ≠ (value.toList.foldl (fun s rnh => s ++ rnh.fmt) "").toList ++ r' := by
  obtain ⟨l, hroute⟩ : ['\n'] <+: route.fmt.toList := Text.begins (by decide) _
  have hlen : value.toList.length = 32 := Vector.length_toList
  obtain ⟨n, ns, hv⟩ := List.exists_cons_of_length_pos (l := value.toList) (by rw [hlen]; decide)
  obtain ⟨l', hn⟩ := begins_rnh n
  rw [hv, Text.toList_foldl, List.flatMap_cons, ← hroute, ← hn]
  intro he
  cases he

/-- An entry's text tells the entry, and where it ends. -/
theorem fmt_readable {kv kv' : KeyValue} {s s' : String} {r r' : List Char} (h : kv.Fmt s) (h' : kv'.Fmt s') (hr : Next r)
    (hr' : Next r') (he : s.toList ++ r = s'.toList ++ r') : kv = kv' ∧ r = r' := by
  cases h with
  | neighbor key value s hs =>
    obtain ⟨l, hl, rfl⟩ := hs
    cases h' with
    | neighbor key' value' s' hs' =>
      obtain ⟨l', hl', rfl⟩ := hs'
      obtain ⟨hx, hrr⟩ := readable_neighbor (key, l) (key', l') r r' hr hr' he
      cases hx
      have hv : value.interfaces = value'.interfaces := hl.eq hl'
      cases value
      cases value'
      cases hv
      exact ⟨rfl, hrr⟩
    | route key' value' => exact absurd he (neighbor_ne_net _ _ _ _ r r')
    | forwarding key' value' => exact absurd he (neighbor_ne_net _ _ _ _ r r')
  | route key value =>
    cases h' with
    | neighbor key' value' s' hs' => exact absurd he.symm (neighbor_ne_net _ _ _ _ r' r)
    | route key' value' =>
      obtain ⟨hx, hrr⟩ := (readable_net.append readable_route) ((key.1.toNat, key.2.toNat), value)
        ((key'.1.toNat, key'.2.toNat), value') r r' hr hr' he
      simp only [Prod.mk.injEq] at hx
      obtain ⟨⟨h1, h2⟩, rfl⟩ := hx
      exact ⟨congrArg (KeyValue.route · value) (Prod.ext (BitVec.eq_of_toNat_eq h1) (BitVec.eq_of_toNat_eq h2)), hrr⟩
    | forwarding key' value' =>
      rw [String.toList_append, String.toList_append, List.append_assoc, List.append_assoc] at he
      obtain ⟨-, he'⟩ := readable_net (key.1.toNat, key.2.toNat) (key'.1.toNat, key'.2.toNat) _ _ trivial trivial he
      exact absurd he' (route_ne_rnhs value value' r r')
  | forwarding key value =>
    cases h' with
    | neighbor key' value' s' hs' => exact absurd he.symm (neighbor_ne_net _ _ _ _ r' r)
    | route key' value' =>
      rw [String.toList_append, String.toList_append, List.append_assoc, List.append_assoc] at he
      obtain ⟨-, he'⟩ := readable_net (key.1.toNat, key.2.toNat) (key'.1.toNat, key'.2.toNat) _ _ trivial trivial he
      exact absurd he'.symm (route_ne_rnhs value' value r' r)
    | forwarding key' value' =>
      obtain ⟨hx, hrr⟩ := (readable_net.append readable_rnhs) ((key.1.toNat, key.2.toNat), value)
        ((key'.1.toNat, key'.2.toNat), value') r r' hr hr' he
      simp only [Prod.mk.injEq] at hx
      obtain ⟨⟨h1, h2⟩, rfl⟩ := hx
      exact ⟨congrArg (KeyValue.forwarding · value) (Prod.ext (BitVec.eq_of_toNat_eq h1) (BitVec.eq_of_toNat_eq h2)), hrr⟩

/-! ## A table's print -/

theorem fmt_begins {kv : KeyValue} {s : String} (h : kv.Fmt s) : ∃ c, [c] <+: s.toList ∧ c ≠ '\t' := by
  have hprefix : ∀ ip len t, ∃ c, [c] <+: (fmtPrefix ip len ++ t).toList ∧ c ≠ '\t' := by
    intro ip len t
    obtain ⟨c, l, hc, hd⟩ := prefix_head ip len t []
    rw [List.append_nil] at hc
    exact ⟨c, ⟨l, hc.symm⟩, by rintro rfl; cases hd⟩
  cases h with
  | neighbor key value s hs => exact ⟨'i', Text.begins (by decide) _, by decide⟩
  | route key value => exact hprefix _ _ _
  | forwarding key value => exact hprefix _ _ _

theorem Printed.next {kvs : List KeyValue} {out : String} (h : Printed kvs out) : Next ("\n".toList ++ out.toList) := by
  refine ⟨_, rfl, fun c hc => ?_⟩
  cases h with
  | nil => cases hc
  | cons hs _ =>
    obtain ⟨d, hd, hne⟩ := fmt_begins hs
    obtain ⟨l, hl⟩ := Text.begins (Text.begins hd _) _
    rw [← hl] at hc
    cases hc
    exact hne

theorem printed_eq {kvs kvs' : List KeyValue} {out : String} (h : Printed kvs out) (h' : Printed kvs' out) : kvs = kvs' := by
  have hne : ∀ {s rest : String}, "" ≠ s ++ "\n" ++ rest := by
    intro s rest he
    have := congrArg (fun s => s.toList.length) he
    simp only [String.toList_append, List.length_append, String.toList_empty, List.length_nil] at this
    have hnl : "\n".toList.length = 1 := rfl
    omega
  generalize ho : out = out' at h'
  induction h generalizing kvs' out' with
  | nil =>
    cases h' with
    | nil => rfl
    | cons _ _ => exact absurd ho hne
  | @cons kv kvs s rest hs hrest ih =>
    cases h' with
    | nil => exact absurd ho.symm hne
    | @cons kv' kvs' s' rest' hs' hrest' =>
      have he := String.toList_inj.mpr ho
      rw [String.toList_append, String.toList_append, String.toList_append, String.toList_append, List.append_assoc,
        List.append_assoc] at he
      obtain ⟨rfl, hr⟩ := fmt_readable hs hs' hrest.next hrest'.next he
      rw [ih rest' (String.toList_inj.mp (List.append_cancel_left hr)) hrest']

/-- Two lists of one table, at any two times, that are printed alike: they have the same
    entries, in the same order, and so have the tables. -/
theorem listing_read_back {s s' : Tables} {tt : TableType} {kvs kvs' : List KeyValue} {out : String} (h : s.Lists tt kvs)
    (h' : s'.Lists tt kvs') (hp : Printed kvs out) (hp' : Printed kvs' out) :
    kvs = kvs' ∧ ∀ l, s.Lists tt l ↔ s'.Lists tt l := by
  have hkvs := printed_eq hp hp'
  refine ⟨hkvs, fun l => ?_⟩
  cases tt with
  | neighborTable =>
    obtain ⟨es, hes, rfl⟩ := h
    obtain ⟨es', hes', rfl⟩ := h'
    obtain rfl := List.map_injective_iff.mpr (fun ⟨⟨_⟩, ⟨_⟩⟩ ⟨⟨_⟩, ⟨_⟩⟩ he => by cases he; rfl) hkvs
    have hnt : s.nt = s'.nt := congrArg NeighborTable.mk (HashMap.Lists.eq hes hes')
    unfold Tables.Lists
    rw [hnt]
  | routeTable =>
    obtain ⟨es, hes, rfl⟩ := h
    obtain ⟨es', hes', rfl⟩ := h'
    obtain rfl := List.map_injective_iff.mpr (fun ⟨⟨_, _⟩, ⟨_⟩⟩ ⟨⟨_, _⟩, ⟨_⟩⟩ he => by cases he; rfl) hkvs
    have hrt : s.rt = s'.rt := congrArg RouteTable.mk (HashMap.Lists.eq hes hes')
    unfold Tables.Lists
    rw [hrt]
  | forwardingTable =>
    obtain ⟨es, hes, rfl⟩ := h
    obtain ⟨es', hes', rfl⟩ := h'
    obtain rfl := List.map_injective_iff.mpr (fun ⟨⟨_, _⟩, ⟨_⟩⟩ ⟨⟨_, _⟩, ⟨_⟩⟩ he => by cases he; rfl) hkvs
    have hft := hes.symm.trans hes'
    exact ⟨fun ⟨l, hl, hk⟩ => ⟨l, hl.trans hft, hk⟩, fun ⟨l, hl, hk⟩ => ⟨l, hl.trans hft.symm, hk⟩⟩

theorem exists_printed (kvs : List KeyValue) : ∃ out, Printed kvs out := by
  induction kvs with
  | nil => exact ⟨_, .nil⟩
  | cons kv kvs ih =>
    obtain ⟨out, ho⟩ := ih
    cases kv with
    | neighbor key value =>
      obtain ⟨l, hl⟩ := value.interfaces.exists_lists
      exact ⟨_, .cons (.neighbor key value _ ⟨l, hl, rfl⟩) ho⟩
    | route key value => exact ⟨_, .cons (.route key value) ho⟩
    | forwarding key value => exact ⟨_, .cons (.forwarding key value) ho⟩

/-- The neighbors are the same before and after a route is added, and printed alike. -/
theorem listing_read_back_route : ∃ (s s' : Tables) (kvs : List KeyValue),
    s' = s.add (.route (0x0a000000, 8) ⟨.local, []⟩) ∧ kvs.length = 1 ∧ ∀ l, s.Lists .neighborTable l ↔ s'.Lists .neighborTable l := by
  let i : NeighborInterface := ⟨0x0a00000b, .zero, 0x0a00000a, .broadcast, 1⟩
  let s := (Tables.new noRoutes).add (.neighbor 7 (Neighbor.new.addInterface i))
  let kvs : List KeyValue := [.neighbor 7 (Neighbor.new.addInterface i)]
  have h : s.Lists .neighborTable kvs := ⟨[(⟨7⟩, ⟨Neighbor.new.addInterface i⟩)], rfl, rfl⟩
  obtain ⟨out, ho⟩ := exists_printed kvs
  exact ⟨s, s.add (.route (0x0a000000, 8) ⟨.local, []⟩), kvs, rfl, rfl, (listing_read_back h h ho ho).2⟩

end FabricRs.State
