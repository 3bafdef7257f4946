/-
The first view of the cluster: a node and its seeds.

A node that is given no membership builds one from its own identity and its seeds.  A seed is
`id@addr`, or an address alone, from which an ID is derived.  A node that is started without an
ID derives its own in the same way.

Nodes whose seeds name the same cluster, each in its own order and with or without itself,
start with the same records, and their rings answer every key alike: they agree on the owners
of every key before the first gossip.
-/
import HyperCache.RingOwners

namespace HyperCache

variable (sum64 : List UInt8 → UInt64)

/-- `binary.LittleEndian.PutUint64`. -/
def littleEndianBytes (v : UInt64) : List UInt8 :=
  [v.toUInt8, (v >>> 8).toUInt8, (v >>> 16).toUInt8, (v >>> 24).toUInt8,
    (v >>> 32).toUInt8, (v >>> 40).toUInt8, (v >>> 48).toUInt8, (v >>> 56).toUInt8]

/-- A digit of `hex.EncodeToString`: `0` to `9`, then `a` to `f`. -/
def hexDigit (d : UInt8) : UInt8 := if d < 10 then 48 + d else 87 + d

def hexEncode (bytes : List UInt8) : Str :=
  bytes.flatMap (fun b : UInt8 => [hexDigit (b >>> 4), hexDigit (b &&& 15)])

/-- `NewNode`.  A node without an ID gets one from the hash of its address. -/
def newNode (id addr : Str) : Node where
  id := if id = [] then hexEncode (littleEndianBytes (sum64 addr)) else id
  address := addr

structure SeedSpec where
  id : Str
  addr : Str

/-- `parseSeedSpec`, which cuts at the first `@`. -/
def parseSeedSpec (raw : Str) : SeedSpec :=
  match raw.span (· ≠ 64) with
  | (_, []) => ⟨[], raw⟩
  | (id, _ :: addr) => ⟨id, addr⟩

/-- The options of a node that `initStandaloneMembership` reads. -/
structure BootConfig where
  nodeID : Str := []
  nodeAddr : Str := []
  seeds : List Str
  replication : Int := 0
  virtualNodes : Int := 0

namespace BootConfig

/-- The local node.  Without an address it is called `local`. -/
def self (cfg : BootConfig) : Node :=
  newNode sum64 cfg.nodeID (if cfg.nodeAddr = [] then [108, 111, 99, 97, 108] else cfg.nodeAddr)

/-- `NewRing` with the options that are set. -/
def newRing (cfg : BootConfig) : Ring where
  vnodes := []
  replication := if cfg.replication > 0 then cfg.replication.toNat else 1
  vnPerNode := if cfg.virtualNodes > 0 then cfg.virtualNodes.toNat else defaultVirtualNodes
  vnPerNode_pos := by
    split
    · omega
    · decide

/-- One round of the loop over the seeds. -/
def addSeed (cfg : BootConfig) (m : Membership) (seed : Str × Runtime) : Membership :=
  let spec := parseSeedSpec seed.1
  if spec.addr = (cfg.self sum64).address then m
  else if spec.id = (cfg.self sum64).id then m
  else m.upsert sum64 seed.2 (newNode sum64 spec.id spec.addr)

/-- `initStandaloneMembership`, each upsert with what the runtime decides for it. -/
def initStandaloneMembership (cfg : BootConfig) (rt : Nat → Runtime) : Membership :=
  let m : Membership := { nodes := .empty, ring := cfg.newRing }
  let m := m.upsert sum64 (rt 0) (cfg.self sum64)
  (cfg.seeds.zipIdx.map (fun s => (s.1, rt (s.2 + 1)))).foldl (cfg.addSeed sum64) m

/-! ## Naming a cluster -/

/-- The identity a seed gives to its node. -/
def named (raw : Str) : NodeID × Str :=
  let spec := parseSeedSpec raw
  ((newNode sum64 spec.id spec.addr).id, spec.addr)

/-- The node is a member, and its seeds name members only, and all of them but possibly the
node itself. -/
structure Joins (members : List (NodeID × Str)) (cfg : BootConfig) : Prop where
  own : ((cfg.self sum64).id, (cfg.self sum64).address) ∈ members
  seeded : ∀ raw ∈ cfg.seeds, named sum64 raw ∈ members
  complete : ∀ mem ∈ members, mem.1 ≠ (cfg.self sum64).id → ∃ raw ∈ cfg.seeds, named sum64 raw = mem

end BootConfig

/-- Members have different IDs and different addresses. -/
structure Distinct (members : List (NodeID × Str)) : Prop where
  ids : (members.map Prod.fst).Nodup
  addrs : (members.map Prod.snd).Nodup

variable {sum64}

theorem newNode_id_ne_nil (id addr : Str) : (newNode sum64 id addr).id ≠ [] := by
  rw [newNode]
  dsimp only
  split
  · simp [hexEncode, littleEndianBytes]
  · assumption

namespace BootConfig

variable {members : List (NodeID × Str)} {cfg : BootConfig}

/-- A seed is skipped exactly when it names the node itself. -/
theorem addSeed_of_named (hm : Distinct members) (hcfg : cfg.Joins sum64 members)
    {seed : Str × Runtime} (hseed : named sum64 seed.1 ∈ members) (m : Membership) :
    cfg.addSeed sum64 m seed =
      if (named sum64 seed.1).1 = (cfg.self sum64).id then m
      else m.upsert sum64 seed.2
        (newNode sum64 (parseSeedSpec seed.1).id (parseSeedSpec seed.1).addr) := by
  rw [addSeed]
  by_cases hself : (named sum64 seed.1).1 = (cfg.self sum64).id
  · have haddr : (parseSeedSpec seed.1).addr = (cfg.self sum64).address :=
      congrArg Prod.snd (List.inj_on_of_nodup_map hm.ids hseed hcfg.own hself)
    rw [if_pos hself, if_pos haddr]
  · have haddr : (parseSeedSpec seed.1).addr ≠ (cfg.self sum64).address := fun heq =>
      hself (congrArg Prod.fst (List.inj_on_of_nodup_map hm.addrs hseed hcfg.own heq))
    have hid : (parseSeedSpec seed.1).id ≠ (cfg.self sum64).id := by
      intro heq
      refine hself ?_
      have hne : (parseSeedSpec seed.1).id ≠ [] := by
        rw [heq]
        exact newNode_id_ne_nil _ _
      rw [← heq, named, newNode, if_neg hne]
    rw [if_neg hself, if_neg haddr, if_neg hid]

/-- What holds of the view while it is built: the records are those of members, alive and as
first seen, and the ring is built from them with the sizes it was given. -/
structure View (sum64 : List UInt8 → UInt64) (members : List (NodeID × Str)) (cfg : BootConfig)
    (m : Membership) : Prop where
  sound : ∀ id n, m.nodes.get id = some n →
    n.state = .alive ∧ n.incarnation = 1 ∧ (id, n.address) ∈ members
  current : m.Current sum64
  replication : m.ring.replication = cfg.newRing.replication
  vnPerNode : m.ring.vnPerNode = cfg.newRing.vnPerNode

theorem view_new : View sum64 members cfg { nodes := .empty, ring := cfg.newRing } where
  sound := fun id n hget => by simp at hget
  current := ⟨List.Pairwise.nil, List.Perm.refl _⟩
  replication := rfl
  vnPerNode := rfl

theorem get_upsert (m : Membership) (rt : Runtime) (n : Node) (id : NodeID) :
    (m.upsert sum64 rt n).nodes.get id =
      if id = n.id then some { n with lastSeen := rt.now } else m.nodes.get id :=
  Keyed.Store.get_put _ _ _

theorem View.upsert {m : Membership} (h : View sum64 members cfg m) (rt : Runtime)
    {id addr : Str} (hmem : ((newNode sum64 id addr).id, addr) ∈ members) :
    View sum64 members cfg (m.upsert sum64 rt (newNode sum64 id addr)) where
  sound := by
    intro id' n hget
    rw [get_upsert] at hget
    split at hget
    · next heq =>
      obtain rfl := Option.some.inj hget
      exact ⟨rfl, rfl, heq ▸ hmem⟩
    · exact h.sound id' n hget
  current := Membership.current_rebuild _ _
  replication := h.replication
  vnPerNode := h.vnPerNode

/-- One seed: the view stays one of members, keeps whom it knows, and knows the node that the
seed names unless it is the node itself. -/
theorem addSeed_view (hm : Distinct members) (hcfg : cfg.Joins sum64 members)
    {seed : Str × Runtime} (hseed : named sum64 seed.1 ∈ members) {m : Membership}
    (h : View sum64 members cfg m) :
    View sum64 members cfg (cfg.addSeed sum64 m seed) ∧
      (∀ id, (m.nodes.get id).isSome → ((cfg.addSeed sum64 m seed).nodes.get id).isSome) ∧
      ((named sum64 seed.1).1 ≠ (cfg.self sum64).id →
        ((cfg.addSeed sum64 m seed).nodes.get (named sum64 seed.1).1).isSome) := by
  rw [addSeed_of_named hm hcfg hseed]
  by_cases hself : (named sum64 seed.1).1 = (cfg.self sum64).id
  · rw [if_pos hself]
    exact ⟨h, fun _ hid => hid, fun hne => absurd hself hne⟩
  · rw [if_neg hself]
    refine ⟨h.upsert seed.2 hseed, fun id hid => ?_, fun _ => ?_⟩
    · rw [get_upsert]
      split
      · rfl
      · exact hid
    · rw [get_upsert, named, if_pos rfl]
      rfl

/-- All seeds. -/
theorem foldl_addSeed_view (hm : Distinct members) (hcfg : cfg.Joins sum64 members)
    (seeds : List (Str × Runtime)) (hseeds : ∀ seed ∈ seeds, named sum64 seed.1 ∈ members)
    {m : Membership} (h : View sum64 members cfg m) :
    View sum64 members cfg (seeds.foldl (cfg.addSeed sum64) m) ∧
      (∀ id, (m.nodes.get id).isSome →
        ((seeds.foldl (cfg.addSeed sum64) m).nodes.get id).isSome) ∧
      ∀ seed ∈ seeds, (named sum64 seed.1).1 ≠ (cfg.self sum64).id →
        ((seeds.foldl (cfg.addSeed sum64) m).nodes.get (named sum64 seed.1).1).isSome := by
  induction seeds generalizing m with
  | nil => exact ⟨h, fun _ hid => hid, fun _ hseed => absurd hseed List.not_mem_nil⟩
  | cons seed seeds ih =>
    obtain ⟨hseed, hrest⟩ := List.forall_mem_cons.mp hseeds
    obtain ⟨hview, hkeep, hadd⟩ := addSeed_view hm hcfg hseed h
    obtain ⟨hview, hkeep', hadd'⟩ := ih hrest hview
    refine ⟨hview, fun id hid => hkeep' id (hkeep id hid), ?_⟩
    intro s hs hne
    rcases List.mem_cons.mp hs with rfl | hs
    · exact hkeep' _ (hadd hne)
    · exact hadd' s hs hne

/-- The first view of a node is the cluster that its seeds name. -/
theorem initStandaloneMembership_view (hm : Distinct members) (hcfg : cfg.Joins sum64 members)
    (rt : Nat → Runtime) :
    View sum64 members cfg (cfg.initStandaloneMembership sum64 rt) ∧
      ∀ mem ∈ members, ((cfg.initStandaloneMembership sum64 rt).nodes.get mem.1).isSome := by
  have hmap : ∀ raw ∈ cfg.seeds, ∃ r,
      (raw, r) ∈ cfg.seeds.zipIdx.map (fun s => (s.1, rt (s.2 + 1))) := by
    intro raw hraw
    obtain ⟨i, hi, rfl⟩ := List.mem_iff_getElem.mp hraw
    exact ⟨rt (i + 1), List.mem_map.mpr
      ⟨(cfg.seeds[i], i), List.mem_zipIdx_iff_getElem?.mpr (List.getElem?_eq_getElem hi), rfl⟩⟩
  have hseeds : ∀ seed ∈ cfg.seeds.zipIdx.map (fun s => (s.1, rt (s.2 + 1))),
      named sum64 seed.1 ∈ members := by
    intro seed hseed
    obtain ⟨s, hs, rfl⟩ := List.mem_map.mp hseed
    exact hcfg.seeded _ (List.fst_mem_of_mem_zipIdx hs)
  have hown : View sum64 members cfg
      (Membership.upsert sum64 (rt 0) (cfg.self sum64) { nodes := .empty, ring := cfg.newRing }) :=
    view_new.upsert (rt 0) hcfg.own
  obtain ⟨hview, hkeep, hadd⟩ := foldl_addSeed_view hm hcfg _ hseeds hown
  refine ⟨hview, fun mem hmem => ?_⟩
  by_cases hself : mem.1 = (cfg.self sum64).id
  · refine hkeep _ ?_
    rw [get_upsert, if_pos hself]
    rfl
  · obtain ⟨raw, hraw, rfl⟩ := hcfg.complete mem hmem hself
    obtain ⟨r, hr⟩ := hmap raw hraw
    exact hadd _ hr hself

theorem record_iff_mem (hm : Distinct members) (hcfg : cfg.Joins sum64 members)
    (rt : Nat → Runtime) (id : NodeID) (addr : Str) :
    (∃ n, (cfg.initStandaloneMembership sum64 rt).nodes.get id = some n ∧ n.address = addr) ↔
      (id, addr) ∈ members := by
  obtain ⟨hview, hknown⟩ := initStandaloneMembership_view hm hcfg rt
  constructor
  · rintro ⟨n, hget, rfl⟩
    exact (hview.sound id n hget).2.2
  · intro hmem
    obtain ⟨n, hget⟩ := Option.isSome_iff_exists.mp (hknown _ hmem)
    exact ⟨n, hget, congrArg Prod.snd
      (List.inj_on_of_nodup_map hm.ids (hview.sound id n hget).2.2 hmem rfl)⟩

theorem liveIDs_initStandaloneMembership (hm : Distinct members) (hcfg : cfg.Joins sum64 members)
    (rt : Nat → Runtime) :
    (cfg.initStandaloneMembership sum64 rt).liveIDs.Perm (members.map Prod.fst) := by
  obtain ⟨hview, hknown⟩ := initStandaloneMembership_view hm hcfg rt
  refine (List.perm_ext_iff_of_nodup (Membership.nodup_liveIDs _) hm.ids).mpr fun id => ?_
  rw [Membership.mem_liveIDs, List.mem_map]
  constructor
  · rintro ⟨n, hget, -⟩
    exact ⟨_, (hview.sound id n hget).2.2, rfl⟩
  · rintro ⟨mem, hmem, rfl⟩
    obtain ⟨n, hget⟩ := Option.isSome_iff_exists.mp (hknown mem hmem)
    refine ⟨n, hget, ?_⟩
    rw [(hview.sound _ n hget).1]
    decide

/-- The owners of a key depend on the cluster and the sizes of the ring alone. -/
theorem lookup_initStandaloneMembership (hm : Distinct members) (hcfg : cfg.Joins sum64 members)
    (hapart : Ring.Apart sum64 cfg.newRing.vnPerNode (members.map Prod.fst)) (rt : Nat → Runtime)
    (key : Key) :
    (cfg.initStandaloneMembership sum64 rt).ring.lookup sum64 key =
      (Ring.clockwise sum64 cfg.newRing.vnPerNode key (members.map Prod.fst)).take
        cfg.newRing.replication := by
  obtain ⟨hview, -⟩ := initStandaloneMembership_view hm hcfg rt
  have hbuilt : (cfg.initStandaloneMembership sum64 rt).ring.BuiltFrom sum64
      (members.map Prod.fst) :=
    hview.current.of_perm (liveIDs_initStandaloneMembership hm hcfg rt)
  rw [← Ring.lookupSearch_eq hbuilt.1, hbuilt.owners_eq hm.ids (hview.vnPerNode ▸ hapart),
    hview.replication, hview.vnPerNode]

/-- Two nodes whose seeds name the same cluster, in any order and with or without themselves,
know the same nodes under the same addresses and find the same owners for every key, in the
same order. -/
theorem bootstrap_agrees {a b : BootConfig} (hm : Distinct members)
    (ha : a.Joins sum64 members) (hb : b.Joins sum64 members)
    (hreplication : a.newRing.replication = b.newRing.replication)
    (hvn : a.newRing.vnPerNode = b.newRing.vnPerNode)
    (hapart : Ring.Apart sum64 a.newRing.vnPerNode (members.map Prod.fst))
    (rtA rtB : Nat → Runtime) :
    (∀ id addr,
      (∃ n, (a.initStandaloneMembership sum64 rtA).nodes.get id = some n ∧ n.address = addr) ↔
        ∃ n, (b.initStandaloneMembership sum64 rtB).nodes.get id = some n ∧ n.address = addr) ∧
    ∀ key, (a.initStandaloneMembership sum64 rtA).ring.lookup sum64 key =
      (b.initStandaloneMembership sum64 rtB).ring.lookup sum64 key := by
  constructor
  · intro id addr
    rw [record_iff_mem hm ha, record_iff_mem hm hb]
  · intro key
    rw [lookup_initStandaloneMembership hm ha hapart,
      lookup_initStandaloneMembership hm hb (hvn ▸ hapart), hreplication, hvn]

/-- The nodes `a`, `b` and `c` at the addresses `x`, `y` and `z`. -/
def abc : List (NodeID × Str) := [([97], [120]), ([98], [121]), ([99], [122])]

/-- `a` with the seeds `b@y` and `c@z`. -/
def bootA : BootConfig where
  nodeID := [97]
  nodeAddr := [120]
  seeds := [[98, 64, 121], [99, 64, 122]]
  replication := 2
  virtualNodes := 1

/-- `b` with the seeds `c@z`, `b@y` and `a@x`. -/
def bootB : BootConfig where
  nodeID := [98]
  nodeAddr := [121]
  seeds := [[99, 64, 122], [98, 64, 121], [97, 64, 120]]
  replication := 2
  virtualNodes := 1

theorem bootstrap_agrees_abc :
    (bootA.initStandaloneMembership Ring.sampleSum64 (fun _ => {})).ring.lookup Ring.sampleSum64
        [107] =
      (bootB.initStandaloneMembership Ring.sampleSum64 (fun _ => {})).ring.lookup Ring.sampleSum64
        [107] := by
  have hm : Distinct abc := ⟨by decide, by decide⟩
  have ha : bootA.Joins Ring.sampleSum64 abc := ⟨by decide, by decide, by decide⟩
  have hb : bootB.Joins Ring.sampleSum64 abc := ⟨by decide, by decide, by decide⟩
  exact (bootstrap_agrees hm ha hb rfl rfl Ring.apart_threeNodes (fun _ => {})
    (fun _ => {})).2 [107]

end BootConfig

end HyperCache
