import Mathlib.Data.List.Perm.Basic
import MassBFT.Common.PortUtil
import MassBFT.Lib.Layout

/-!
# All nodes of a host

`plannedPort` says where an entry is meant to be: services, nodes and regions are the digits of a
place in one layout. **Every node finds the planned ports**, so the entries of all nodes are apart
and the nodes of a region agree (`local_deployment_ports`).

Port 65535 is lost to the last service, because the offset behind it is looked at; no other port
is lost.
-/

set_option autoImplicit false

namespace MassBFT.Common

open Function List Layout

/-! ## The calculator -/

/-- The row of a local service that starts at an offset. -/
def localRow (counts : List Nat) (group : Nat) (offset : Int) : List Int :=
  (List.range (counts.getD group 0)).map fun (j : Nat) => offset + (rank counts group j : Nat)

/-- The row of a remote service that starts at an offset. -/
def remoteRow (counts : List Nat) (group node : Nat) (offset : Int) : List Int :=
  (List.range counts.length).map fun (i : Nat) =>
    offset + (counts.length * rank counts group node + i : Nat)

/-- Where the remote service number `k` starts, behind the seven local ones. -/
def remoteStart (counts : List Nat) (offset : Int) (k : Nat) : Int :=
  offset + (counts.sum * 7 + counts.length * counts.sum * k : Nat)

theorem remoteStart_succ (counts : List Nat) (offset : Int) (k : Nat) :
    remoteStart counts offset (k + 1) =
      remoteStart counts offset k + (counts.length * counts.sum : Nat) := by
  rw [remoteStart, remoteStart, Nat.mul_add_one _ k]
  omega

namespace PortCalculator

section

variable {c : PortCalculator} {counts : List Nat} {group node : Nat} {offset : Int}

theorem isPortValid_iff : c.isPortValid = true ↔ 0 < c.portOffset ∧ c.portOffset ≤ 65535 := by
  simp only [isPortValid, Bool.not_eq_true', Bool.or_eq_false_iff, decide_eq_false_iff_not]
  omega

/-- Behind the region of the node, the loop skips. -/
theorem localLoop_skip {retCode : Int} {i : Nat} {regions : List Nat} (h : c.groupId < i) :
    localLoop retCode i regions c =
      (retCode, { c with portOffset := c.portOffset + (regions.sum : Nat) }) := by
  induction regions generalizing i c with
  | nil => simp [localLoop]
  | cons totalNodes rest ih =>
    have hrest := ih (c := { c with portOffset := c.portOffset + (totalNodes : Int) })
      (i := i + 1) (Nat.lt_succ_of_lt h)
    rw [localLoop, if_pos (by omega), hrest]
    simp [Int.add_assoc]

/-- The loop takes the ports of one region, if they are valid, and passes all regions. -/
theorem localLoop_eq {retCode : Int} {i k : Nat} {regions : List Nat} (hgroup : c.groupId = i + k)
    (hk : k < regions.length) (hpos : 0 < c.portOffset + (before regions k + regions[k] : Nat))
    (hle : c.portOffset + (before regions k + regions[k] : Nat) ≤ 65535) :
    localLoop retCode i regions c = ((c.results.length : Int),
      { c with
        portOffset := c.portOffset + (regions.sum : Nat)
        results := c.results ++ [(List.range regions[k]).map fun (j : Nat) =>
          c.portOffset + (before regions k : Nat) + (j : Int)] }) := by
  induction regions generalizing i k c with
  | nil => simp at hk
  | cons totalNodes rest ih =>
    cases k with
    | zero =>
      have hvalid :
          isPortValid { c with portOffset := c.portOffset + (totalNodes : Int) } = true := by
        rw [isPortValid_iff]
        simp only [before_zero, getElem_cons_zero, Nat.zero_add] at hpos hle
        exact ⟨hpos, hle⟩
      rw [localLoop, if_neg (by omega)]
      simp only [hvalid, Bool.not_true, Bool.false_eq_true, if_false]
      rw [localLoop_skip (Nat.lt_succ_of_le (by dsimp only; omega))]
      simp [Int.add_assoc]
    | succ k =>
      simp only [before_cons_succ, getElem_cons_succ] at hpos hle
      have hrest := ih (c := { c with portOffset := c.portOffset + (totalNodes : Int) })
        (i := i + 1) (k := k) (by dsimp only; omega) (by simpa using hk)
        (by dsimp only; push_cast at hpos ⊢; omega) (by dsimp only; push_cast at hle ⊢; omega)
      rw [localLoop, if_pos (by omega), hrest]
      simp [Int.add_assoc]

/-- What a local service takes, if it is valid. -/
theorem newHeterogeneousLocalServicePorts_eq (results : List (List Int))
    (hgroup : group < counts.length) (hpos : 0 < offset)
    (hle : offset + (counts.sum : Nat) ≤ 65535) :
    newHeterogeneousLocalServicePorts ⟨counts, offset, group, node, results⟩ =
      ((results.length : Int), ⟨counts, offset + (counts.sum : Nat), group, node,
        results ++ [localRow counts group offset]⟩) := by
  have hend := before_add_le_sum hgroup
  rw [newHeterogeneousLocalServicePorts, localLoop_eq (Nat.zero_add _).symm hgroup
    (by dsimp only; omega) (by dsimp only; omega), localRow, getD_eq_getElem?_getD,
    getElem?_eq_getElem hgroup]
  simp [rank, Int.add_assoc]

theorem foldl_skip (groupCount : Nat) (l : List Nat) (offset : Int) :
    l.foldl (fun (o : Int) totalNodes => o + (groupCount * totalNodes : Nat)) offset =
      offset + (groupCount * l.sum : Nat) := by
  induction l generalizing offset with
  | nil => simp
  | cons totalNodes rest ih =>
    rw [foldl_cons, ih, sum_cons, Nat.mul_add]
    push_cast
    omega

/-- What a remote service takes, valid or not. -/
theorem newHeterogeneousRemoteServicePorts_eq (results : List (List Int)) (hpos : 0 < offset) :
    newHeterogeneousRemoteServicePorts ⟨counts, offset, group, node, results⟩ =
      if offset + (counts.length * counts.sum : Nat) ≤ 65535 then
        ((results.length : Int), ⟨counts, offset + (counts.length * counts.sum : Nat), group, node,
          results ++ [remoteRow counts group node offset]⟩)
      else (-1, ⟨counts, offset + (counts.length * counts.sum : Nat), group, node, results⟩) := by
  have hvalid : isPortValid ⟨counts, offset + (counts.length * counts.sum : Nat), group, node,
      results⟩ = true ↔ offset + (counts.length * counts.sum : Nat) ≤ 65535 := by
    rw [isPortValid_iff]
    dsimp only
    omega
  unfold newHeterogeneousRemoteServicePorts
  simp only [foldl_skip]
  by_cases hle : offset + (counts.length * counts.sum : Nat) ≤ 65535
  · rw [if_pos hle, hvalid.mpr hle, Bool.not_true, if_neg Bool.false_ne_true]
    have hport : ∀ i : Nat, offset + (counts.length * (counts.take group).sum : Nat) +
        (counts.length * node : Nat) + (i : Int) =
          offset + (counts.length * rank counts group node + i : Nat) := by
      intro i
      rw [rank, before, Nat.mul_add]
      push_cast
      omega
    simp only [hport, remoteRow]
  · rw [if_neg hle, if_pos]
    rw [Bool.not_eq_true', ← Bool.not_eq_true]
    exact mt hvalid.mp hle

end

end PortCalculator

/-! ## The mappers -/

namespace ZMQPortUtil

section

variable {counts : List Nat} {group node : Nat} {offset : Int}

/-- The local services `done` have their ports, one behind another. -/
structure LocalDone (counts : List Nat) (group node : Nat) (offset : Int) (done : List PortType)
    (u : ZMQPortUtil) : Prop where
  calculator : u.portCalculator = ⟨counts, offset + (counts.sum * done.length : Nat), group, node,
    (List.range done.length).map fun (k : Nat) =>
      localRow counts group (offset + (counts.sum * k : Nat))⟩
  mapped : ∀ t ∈ done, u.localServicePortMapper t = [(done.idxOf t : Int)]
  unmapped : ∀ t, t ∉ done → u.localServicePortMapper t = []

/-- One more local service. -/
theorem LocalDone.addLocal {done : List PortType} {u : ZMQPortUtil} {t : PortType}
    (h : LocalDone counts group node offset done u) (hgroup : group < counts.length)
    (hpos : 0 < offset) (ht : t ∉ done)
    (hle : offset + (counts.sum * (done.length + 1) : Nat) ≤ 65535) :
    LocalDone counts group node offset (done ++ [t])
      (u.addLocal PortCalculator.newHeterogeneousLocalServicePorts t) := by
  have hnext : offset + (counts.sum * (done.length + 1) : Nat) =
      offset + (counts.sum * done.length : Nat) + (counts.sum : Nat) := by
    rw [Nat.mul_succ]
    push_cast
    omega
  have hnow := fun results => @PortCalculator.newHeterogeneousLocalServicePorts_eq counts group node
    (offset + (counts.sum * done.length : Nat)) results hgroup (by omega) (by rwa [← hnext])
  constructor
  · simp only [ZMQPortUtil.addLocal, h.calculator, hnow, length_append, length_singleton,
      range_succ, map_append, map_singleton, hnext]
  · intro t' ht'
    simp only [ZMQPortUtil.addLocal, h.calculator, hnow, length_map, length_range]
    rcases mem_append.mp ht' with hmem | hmem
    · have hne : t' ≠ t := by
        rintro rfl
        exact ht hmem
      rw [update_of_ne hne, h.mapped t' hmem, idxOf_append_of_mem hmem]
    · rw [mem_singleton.mp hmem, update_self, h.unmapped t ht,
        idxOf_append_of_notMem ht]
      simp
  · intro t' ht'
    have hne : t' ≠ t := by
      rintro rfl
      exact ht' (by simp)
    simp only [ZMQPortUtil.addLocal, update_of_ne hne]
    exact h.unmapped t' fun hmem => ht' (mem_append_left _ hmem)

/-- All of them. -/
theorem LocalDone.foldl {done services : List PortType} {u : ZMQPortUtil}
    (h : LocalDone counts group node offset done u) (hgroup : group < counts.length)
    (hpos : 0 < offset) (hnodup : (done ++ services).Nodup)
    (hle : offset + (counts.sum * (done ++ services).length : Nat) ≤ 65535) :
    LocalDone counts group node offset (done ++ services) (services.foldl
      (ZMQPortUtil.addLocal PortCalculator.newHeterogeneousLocalServicePorts) u) := by
  induction services generalizing done u with
  | nil => simpa using h
  | cons t rest ih =>
    have hsplit : done ++ t :: rest = done ++ [t] ++ rest := by simp
    rw [hsplit] at hnodup hle ⊢
    rw [foldl_cons]
    refine ih (h.addLocal hgroup hpos ?_ ?_) hnodup hle
    · intro hmem
      have hfirst := (nodup_append.mp hnodup).1
      exact (nodup_append.mp hfirst).2.2 t hmem t (by simp) rfl
    · have hmono : counts.sum * (done.length + 1) ≤ counts.sum * (done ++ [t] ++ rest).length := by
        apply Nat.mul_le_mul_left
        simp
      omega

/-- What the lookups of a node find: the rows of its local services, and its own ports of the
remote services. A remote service is missing if its last port is 65535. -/
structure Plan (counts : List Nat) (group node : Nat) (offset : Int) (u : ZMQPortUtil) :
    Prop where
  localPorts : ∀ t ∈ localServices, u.getLocalServicePorts t 0 =
    .ok (localRow counts group (offset + (counts.sum * localServices.idxOf t : Nat)))
  remotePort : ∀ t ∈ remoteServices, ∀ i, i < counts.length → u.getRemoteServicePort t i =
    if remoteStart counts offset (remoteServices.idxOf t + 1) ≤ 65535 then
      .ok (remoteStart counts offset (remoteServices.idxOf t) +
        (counts.length * rank counts group node + i : Nat))
    else .error .outOfRange

theorem getPorts_of_getElem? {c : PortCalculator} {k : Nat} {row : List Int}
    (h : c.results[k]? = some row) : c.getPorts k = .ok row := by
  simp only [PortCalculator.getPorts, Int.toNat_natCast, h]
  rw [if_neg (by omega)]

theorem getElem?_remoteRow {i : Nat} (hi : i < counts.length) (start : Int) :
    (remoteRow counts group node start)[i]? =
      some (start + (counts.length * rank counts group node + i : Nat)) := by
  simp [remoteRow, hi]

/-- The rows of the seven local services. -/
def localRows (counts : List Nat) (group : Nat) (offset : Int) : List (List Int) :=
  (List.range 7).map fun (k : Nat) => localRow counts group (offset + (counts.sum * k : Nat))

/-- A plan is read off the results and the mappers. -/
theorem plan_of_results {u : ZMQPortUtil} {extra : List (List Int)}
    (hresults : u.portCalculator.results = localRows counts group offset ++ extra)
    (hmapped : ∀ t ∈ localServices, u.localServicePortMapper t = [(localServices.idxOf t : Int)])
    (hremote : ∀ t ∈ remoteServices, ∃ index, u.remoteServicePortMapper t = some index ∧
      u.portCalculator.getPorts index =
        if remoteStart counts offset (remoteServices.idxOf t + 1) ≤ 65535 then
          .ok (remoteRow counts group node (remoteStart counts offset (remoteServices.idxOf t)))
        else .error .outOfRange) : Plan counts group node offset u := by
  constructor
  · intro t ht
    have hidx : localServices.idxOf t < 7 := idxOf_lt_length_of_mem ht
    have hrow : u.portCalculator.results[localServices.idxOf t]? =
        some (localRow counts group (offset + (counts.sum * localServices.idxOf t : Nat))) := by
      rw [hresults, getElem?_append_left (by simpa [localRows] using hidx), localRows,
        getElem?_map, getElem?_range hidx]
      rfl
    rw [getLocalServicePorts, hmapped t ht]
    exact getPorts_of_getElem? hrow
  · intro t ht i hi
    obtain ⟨index, hindex, hports⟩ := hremote t ht
    simp only [getRemoteServicePort, hindex, hports]
    split_ifs
    · simp only [getElem?_remoteRow hi]
    · rfl

theorem plan_initWithLocalDeployment (hgroup : group < counts.length) (hpos : 0 < offset)
    (hle : remoteStart counts offset 1 ≤ 65535) :
    Plan counts group node offset (initWithLocalDeployment
      ⟨⟨counts, offset, group, node, []⟩, fun _ => none, fun _ => []⟩) := by
  have hstart : offset + (counts.sum * 7 : Nat) = remoteStart counts offset 0 := by
    rw [remoteStart, Nat.mul_zero, Nat.add_zero]
  have hnext : remoteStart counts offset 1 = _ := remoteStart_succ counts offset 0
  have hlocal : LocalDone counts group node offset ([] ++ localServices)
      (localServices.foldl (addLocal
        PortCalculator.newHeterogeneousLocalServicePorts)
        ⟨⟨counts, offset, group, node, []⟩, fun _ => none, fun _ => []⟩) := by
    refine LocalDone.foldl ⟨by simp, by simp, by simp⟩ hgroup hpos (by decide) ?_
    change offset + (counts.sum * 7 : Nat) ≤ 65535
    omega
  have hcalc : _ = PortCalculator.mk counts (offset + (counts.sum * 7 : Nat)) group node
    (localRows counts group offset) := hlocal.calculator
  have hmapped : ∀ t ∈ localServices, _ = [(localServices.idxOf t : Int)] := hlocal.mapped
  rw [hstart] at hcalc
  unfold initWithLocalDeployment
  generalize localServices.foldl (addLocal
    PortCalculator.newHeterogeneousLocalServicePorts)
    ⟨⟨counts, offset, group, node, []⟩, fun _ => none, fun _ => []⟩ = u at hcalc hmapped
  have hlen : (localRows counts group offset).length = 7 := by simp [localRows]
  -- the first remote service is valid in any case, the second one may be out of range
  have hports := fun k results (h : 0 < remoteStart counts offset k) =>
    @PortCalculator.newHeterogeneousRemoteServicePorts_eq counts group node _ results h
  simp only [← remoteStart_succ] at hports
  have hfirst := hports 0 (localRows counts group offset) (by omega)
  have hsecond := hports 1 (localRows counts group offset ++
    [remoteRow counts group node (remoteStart counts offset 0)]) (by omega)
  rw [if_pos hle, hlen] at hfirst
  by_cases hlast : remoteStart counts offset 2 ≤ 65535
  · rw [if_pos hlast] at hsecond
    simp only [remoteServices, foldl_cons, foldl_nil, setRemote, hcalc, hfirst, hsecond]
    refine plan_of_results (append_assoc _ _ _) hmapped fun t ht => ?_
    simp only [remoteServices, mem_cons, not_mem_nil, or_false] at ht
    rcases ht with rfl | rfl
    · refine ⟨7, by simp, (getPorts_of_getElem? (k := 7) ?_).trans (if_pos hle).symm⟩
      simp [hlen, remoteServices]
    · refine ⟨8, by simp [hlen], (getPorts_of_getElem? (k := 8) ?_).trans (if_pos hlast).symm⟩
      simp [hlen, remoteServices]
  · rw [if_neg hlast] at hsecond
    simp only [remoteServices, foldl_cons, foldl_nil, setRemote, hcalc, hfirst, hsecond]
    refine plan_of_results rfl hmapped fun t ht => ?_
    simp only [remoteServices, mem_cons, not_mem_nil, or_false] at ht
    rcases ht with rfl | rfl
    · refine ⟨7, by simp, (getPorts_of_getElem? (k := 7) ?_).trans (if_pos hle).symm⟩
      simp [hlen, remoteServices]
    · exact ⟨-1, by simp, (if_neg hlast).symm⟩

end

/-! ## The vector of region sizes -/

section

variable {vector : List Nat} {it : Nat × Nat} {entries : List (Nat × Nat)} {i n : Nat}

theorem length_assign : (assign vector it).length = max vector.length (it.1 + 1) := by
  unfold assign
  split_ifs with h
  · simp only [length_set, length_append, length_replicate]
    omega
  · rw [length_set]
    omega

theorem getElem?_assign_self : (assign vector it)[it.1]? = some it.2 := by
  have hlt : it.1 < (assign vector it).length := by
    rw [length_assign]
    omega
  unfold assign at hlt ⊢
  rw [length_set] at hlt
  exact getElem?_set_self hlt

theorem getElem?_assign_of_ne (hi : i < vector.length) (hne : it.1 ≠ i) :
    (assign vector it)[i]? = vector[i]? := by
  unfold assign
  rw [getElem?_set_ne hne]
  split_ifs
  · exact getElem?_append_left hi
  · rfl

/-- An entry that has been written stays, as long as its key does not come again. -/
theorem getElem?_foldl_assign (hi : i < vector.length) (hkeys : i ∉ entries.map Prod.fst) :
    (entries.foldl assign vector)[i]? = vector[i]? := by
  induction entries generalizing vector with
  | nil => rfl
  | cons it rest ih =>
    rw [map_cons, mem_cons, not_or] at hkeys
    rw [foldl_cons, ih (by rw [length_assign]; omega) hkeys.2,
      getElem?_assign_of_ne hi (Ne.symm hkeys.1)]

theorem getElem?_of_mem (hnodup : (entries.map Prod.fst).Nodup) (hmem : (i, n) ∈ entries) :
    (entries.foldl assign vector)[i]? = some n := by
  induction entries generalizing vector with
  | nil => cases hmem
  | cons it rest ih =>
    rw [map_cons, nodup_cons] at hnodup
    rw [foldl_cons]
    rcases mem_cons.mp hmem with rfl | hmem
    · rw [getElem?_foldl_assign (by rw [length_assign]; omega) hnodup.1]
      exact getElem?_assign_self
    · exact ih hnodup.2 hmem

theorem length_foldl_assign_le {bound : Nat} (hvector : vector.length ≤ bound)
    (hkeys : ∀ it ∈ entries, it.1 < bound) : (entries.foldl assign vector).length ≤ bound := by
  induction entries generalizing vector with
  | nil => exact hvector
  | cons it rest ih =>
    have hit := hkeys it mem_cons_self
    refine ih ?_ fun it' h => hkeys it' (mem_cons_of_mem it h)
    rw [length_assign]
    omega

/-- The map of the regions with their sizes. -/
def regionMap (counts : List Nat) : List (Nat × Nat) := counts.zipIdx.map fun p => (p.2, p.1)

theorem mem_regionMap {counts : List Nat} : it ∈ regionMap counts ↔ counts[it.1]? = some it.2 := by
  simp only [regionMap, mem_map, mem_zipIdx_iff_getElem?, Prod.exists]
  constructor
  · rintro ⟨n, i, h, rfl⟩
    exact h
  · intro h
    exact ⟨it.2, it.1, h, rfl⟩

theorem keys_regionMap (counts : List Nat) :
    (regionMap counts).map Prod.fst = List.range counts.length := by
  rw [regionMap, map_map]
  exact zipIdx_map_snd 0 counts ▸ by simp [range_eq_range']

/-- **In whatever order the map is gone through, the vector lists the sizes of the regions.** -/
theorem nodeCountVector_eq {counts : List Nat} (h : entries.Perm (regionMap counts)) :
    nodeCountVector entries = counts := by
  have hmem : ∀ it, it ∈ entries ↔ counts[it.1]? = some it.2 :=
    fun it => h.mem_iff.trans mem_regionMap
  have hnodup : (entries.map Prod.fst).Nodup := by
    rw [(h.map Prod.fst).nodup_iff, keys_regionMap]
    exact nodup_range
  have hlen : (nodeCountVector entries).length ≤ counts.length :=
    length_foldl_assign_le (Nat.zero_le _) fun it hit =>
      (List.getElem?_eq_some_iff.mp ((hmem it).mp hit)).1
  refine ext_getElem? fun i => ?_
  cases hi : counts[i]? with
  | none =>
    rw [List.getElem?_eq_none_iff] at hi ⊢
    exact hlen.trans hi
  | some n => exact getElem?_of_mem hnodup ((hmem (i, n)).mpr hi)

end

end ZMQPortUtil

open ZMQPortUtil

/-! ## Listeners -/

/-- What a node listens for: a local service, or one region of a remote service. -/
inductive Service where
  | localService (portType : PortType)
  | remoteService (portType : PortType) (region : Nat)
  deriving DecidableEq, Repr

/-- A node with one thing that it listens for. -/
structure Listener where
  group : Nat
  node : Nat
  service : Service
  deriving DecidableEq, Repr

/-- The service is one of the seven local ones, or one of the two remote ones for some region. -/
def Service.Valid (counts : List Nat) : Service → Prop
  | .localService t => t ∈ localServices
  | .remoteService t region => t ∈ remoteServices ∧ region < counts.length

/-- The node exists, and so does the service. -/
def Listener.Valid (counts : List Nat) (l : Listener) : Prop :=
  l.node < counts.getD l.group 0 ∧ l.service.Valid counts

/-- The place of a listener in the layout of all ports. -/
def place (counts : List Nat) (l : Listener) : Nat :=
  match l.service with
  | .localService t =>
    counts.sum * localServices.idxOf t + rank counts l.group l.node
  | .remoteService t region =>
    counts.sum * 7 + (counts.length * counts.sum * remoteServices.idxOf t +
      (counts.length * rank counts l.group l.node + region))

/-- The port that is meant for a listener. -/
def plannedPort (counts : List Nat) (offset : Int) (l : Listener) : Int :=
  offset + (place counts l : Nat)

section

variable {counts : List Nat} {l l' : Listener}

theorem Listener.Valid.group_lt (h : l.Valid counts) : l.group < counts.length := by
  by_contra hge
  have hnode := h.1
  rw [getD_eq_getElem?_getD, getElem?_eq_none (Nat.not_lt.mp hge)] at hnode
  exact Nat.not_lt_zero _ hnode

theorem Listener.Valid.node_lt (h : l.Valid counts) :
    l.node < counts.get ⟨l.group, h.group_lt⟩ := by
  have hnode := h.1
  rwa [getD_eq_getElem?_getD, getElem?_eq_getElem h.group_lt, Option.getD_some] at hnode

theorem Listener.Valid.rank_lt (h : l.Valid counts) : rank counts l.group l.node < counts.sum :=
  Layout.rank_lt h.group_lt h.node_lt

/-- The local services fill the first part of the layout. -/
theorem place_local_lt (h : l.Valid counts) {t : PortType} (hs : l.service = .localService t) :
    place counts l < counts.sum * 7 := by
  have ht := h.2
  rw [hs] at ht
  rw [place, hs]
  exact radix_lt h.rank_lt (idxOf_lt_length_of_mem ht)

/-- **The places of all listeners are different.** -/
theorem place_inj (h : l.Valid counts) (h' : l'.Valid counts)
    (heq : place counts l = place counts l') : l = l' := by
  have hfinish : rank counts l.group l.node = rank counts l'.group l'.node →
      l.service = l'.service → l = l' := by
    intro hrank hservice
    obtain ⟨hgroup, hnode⟩ := rank_inj h.group_lt h'.group_lt h.node_lt h'.node_lt hrank
    cases l
    cases l'
    simp_all
  have hvalid := h.2
  have hvalid' := h'.2
  cases hs : l.service with
  | localService t =>
    have hlt := place_local_lt h hs
    cases hs' : l'.service with
    | localService t' =>
      rw [hs] at hvalid
      rw [hs'] at hvalid'
      rw [place, place, hs, hs'] at heq
      obtain ⟨hidx, hrank⟩ := radix_inj h.rank_lt h'.rank_lt heq
      exact hfinish hrank (by rw [hs, hs', (idxOf_inj hvalid).mp hidx])
    | remoteService t' i' =>
      rw [heq, place, hs'] at hlt
      dsimp only at hlt
      omega
  | remoteService t i =>
    cases hs' : l'.service with
    | localService t' =>
      have hlt := place_local_lt h' hs'
      rw [← heq, place, hs] at hlt
      dsimp only at hlt
      omega
    | remoteService t' i' =>
      rw [hs] at hvalid
      rw [hs'] at hvalid'
      rw [place, place, hs, hs'] at heq
      obtain ⟨hidx, hdigits⟩ := radix_inj (radix_lt hvalid.2 h.rank_lt)
        (radix_lt hvalid'.2 h'.rank_lt) (Nat.add_left_cancel heq)
      obtain ⟨hrank, hregion⟩ := radix_inj hvalid.2 hvalid'.2 hdigits
      exact hfinish hrank (by rw [hs, hs', (idxOf_inj hvalid.1).mp hidx, hregion])

/-- The port of a listener, as the plan of its node has it. -/
def ZMQPortUtil.entry (u : ZMQPortUtil) (node : Nat) : Service → Except Failure Int
  | .localService t =>
    match u.getLocalServicePorts t 0 with
    | .error what => .error what
    | .ok ports =>
      match ports[node]? with
      | none => .error .outOfRange
      | some port => .ok port
  | .remoteService t region => u.getRemoteServicePort t region

/-- The plan of a node: what `NewZMQPortUtil` makes for local deployment. -/
def deployed (counts : List Nat) (offset : Int) (group node : Nat) : ZMQPortUtil :=
  initWithLocalDeployment
    ⟨⟨counts, offset, group, node, []⟩, fun _ => none, fun _ => []⟩

/-- An entry that the plan has is the planned port; the plan has all entries, unless a port behind
the last one would be too large. -/
theorem entry_eq {u : ZMQPortUtil} {offset : Int}
    (hplan : Plan counts l.group l.node offset u)
    (hfirst : remoteStart counts offset 1 ≤ 65535) (h : l.Valid counts) :
    u.entry l.node l.service = .ok (plannedPort counts offset l) ∨
      u.entry l.node l.service = .error .outOfRange ∧
        (∃ i, l.service = .remoteService .REMOTE_FRAGMENT_RECEIVE i) ∧
        65535 < remoteStart counts offset 2 := by
  have hvalid := h.2
  cases hs : l.service with
  | localService t =>
    rw [hs] at hvalid
    left
    have hrow : (localRow counts l.group (offset +
        (counts.sum * localServices.idxOf t : Nat)))[l.node]? =
          some (plannedPort counts offset l) := by
      simp only [localRow, getElem?_map, getElem?_range h.1, Option.map_some, plannedPort,
        place, hs]
      push_cast
      rw [Int.add_assoc]
    simp only [ZMQPortUtil.entry, hplan.localPorts t hvalid, hrow]
  | remoteService t i =>
    rw [hs] at hvalid
    rw [ZMQPortUtil.entry, hplan.remotePort t hvalid.1 i hvalid.2]
    split_ifs with hle
    · left
      rw [plannedPort, place, hs, remoteStart]
      push_cast
      simp [Int.add_assoc]
    · right
      have ht := hvalid.1
      simp only [remoteServices, mem_cons, not_mem_nil, or_false] at ht
      rcases ht with rfl | rfl
      · exact absurd hfirst hle
      · exact ⟨rfl, ⟨i, rfl⟩, not_le.mp hle⟩

/-- The size of the layout. -/
theorem place_lt (h : l.Valid counts) :
    place counts l < counts.sum * 7 + counts.length * counts.sum * 2 := by
  have hvalid := h.2
  cases hs : l.service with
  | localService t => exact Nat.lt_add_right _ (place_local_lt h hs)
  | remoteService t i =>
    rw [hs] at hvalid
    rw [place, hs]
    exact Nat.add_lt_add_left (radix_lt (radix_lt hvalid.2 h.rank_lt)
      (idxOf_lt_length_of_mem hvalid.1)) _

/-- The last place of the layout is taken. -/
theorem exists_last_place (hne : counts ≠ []) (hsizes : ∀ n ∈ counts, 1 ≤ n) :
    ∃ l : Listener, l.Valid counts ∧
      place counts l + 1 = counts.sum * 7 + counts.length * counts.sum * 2 := by
  have hlast : counts.length - 1 < counts.length := by
    have := length_pos_iff.mpr hne
    omega
  have hsize := hsizes _ (getElem_mem hlast)
  have hsum : before counts (counts.length - 1) + counts[counts.length - 1] = counts.sum := by
    rw [← before_succ hlast, Nat.sub_add_cancel (Nat.one_le_of_lt hlast), before, take_length]
  refine ⟨⟨counts.length - 1, counts[counts.length - 1] - 1,
    .remoteService .REMOTE_FRAGMENT_RECEIVE (counts.length - 1)⟩, ⟨?_, ?_⟩, ?_⟩
  · rw [getD_eq_getElem?_getD, getElem?_eq_getElem hlast, Option.getD_some]
    dsimp only
    omega
  · exact ⟨by decide, hlast⟩
  · have hrank : rank counts (counts.length - 1) (counts[counts.length - 1] - 1) + 1 =
        counts.sum := by
      rw [rank, ← hsum]
      omega
    have hidx : remoteServices.idxOf .REMOTE_FRAGMENT_RECEIVE = 1 := rfl
    simp only [place, hidx]
    generalize rank counts (counts.length - 1) (counts[counts.length - 1] - 1) = r at hrank
    rw [← hrank, Nat.mul_succ counts.length r]
    omega

end

theorem mapM_eq_ok {ε α β : Type} {f : α → Except ε β} {g : α → β} {l : List α}
    (h : ∀ a ∈ l, f a = .ok (g a)) : l.mapM f = .ok (l.map g) := by
  induction l with
  | nil => rfl
  | cons a l ih =>
    rw [mapM_cons, h a mem_cons_self, ih fun b hb => h b (mem_cons_of_mem a hb)]
    rfl

/-- All plans of a deployment: `InitPortsConfig` makes the plan of every node of the map. -/
theorem initPortsConfig_eq {counts : List Nat} {entries : List (Nat × Nat)}
    (hmap : entries.Perm (regionMap counts)) (offset : Int) :
    initPortsConfig offset entries false =
      .ok (entries.map fun it => (it.1, (List.range it.2).map (deployed counts offset it.1))) := by
  have hnew : ∀ it ∈ entries, ∀ i ∈ List.range it.2,
      newZMQPortUtil entries it.1 i offset false =
        .ok (deployed counts offset it.1 i) := by
    intro it hit i hi
    have hcount := mem_regionMap.mp (hmap.mem_iff.mp hit)
    have hlt : ¬ it.2 ≤ i := Nat.not_le.mpr (mem_range.mp hi)
    simp only [newZMQPortUtil, nodeCountVector_eq hmap,
      newFromVector, PortCalculator.newPortCalculator, hcount, hlt, if_false]
    rfl
  apply mapM_eq_ok
  intro it hit
  rw [mapM_eq_ok (hnew it hit)]
  rfl

/-- **The ports of a host.** For regions of any sizes and any positive offset such that all planned
ports are ports, every node of the configuration makes its plan. Listeners that find the same port
are the same; every listener finds its port, apart from those of the last service when port 65535
is planned; and two nodes of a region have the same ports for every local service. -/
theorem local_deployment_ports {counts : List Nat} (hsizes : ∀ n ∈ counts, 1 ≤ n)
    {entries : List (Nat × Nat)} (hmap : entries.Perm (regionMap counts)) {offset : Int}
    (hoffset : 0 < offset)
    (hports : ∀ l : Listener, l.Valid counts → plannedPort counts offset l ≤ 65535) :
    initPortsConfig offset entries false =
      .ok (entries.map fun it => (it.1, (List.range it.2).map (deployed counts offset it.1))) ∧
    (∀ (l l' : Listener) (port : Int), l.Valid counts → l'.Valid counts →
      (deployed counts offset l.group l.node).entry l.node l.service = .ok port →
      (deployed counts offset l'.group l'.node).entry l'.node l'.service = .ok port → l = l') ∧
    (∀ l : Listener, l.Valid counts →
      (deployed counts offset l.group l.node).entry l.node l.service =
          .ok (plannedPort counts offset l) ∨
        (∃ i, l.service = .remoteService .REMOTE_FRAGMENT_RECEIVE i) ∧
        ∃ last : Listener, last.Valid counts ∧ plannedPort counts offset last = 65535) ∧
    (∀ (group node node' : Nat) (t : PortType), node < counts.getD group 0 →
      node' < counts.getD group 0 → t ∈ localServices →
      (deployed counts offset group node).entry node' (.localService t) =
        (deployed counts offset group node').entry node' (.localService t)) := by
  have hplan : ∀ l : Listener, l.Valid counts →
      Plan counts l.group l.node offset (deployed counts offset l.group l.node) ∧
        remoteStart counts offset 1 ≤ 65535 ∧ remoteStart counts offset 2 ≤ 65536 := by
    intro l hl
    have hne : counts ≠ [] := length_pos_iff.mp (Nat.zero_lt_of_lt hl.group_lt)
    obtain ⟨last, hlast, hplace⟩ := exists_last_place hne hsizes
    have hbound := hports last hlast
    have hcells : 1 ≤ counts.length * counts.sum :=
      Nat.mul_pos (Nat.zero_lt_of_lt hl.group_lt) (Nat.zero_lt_of_lt hl.rank_lt)
    rw [plannedPort] at hbound
    have hnext : remoteStart counts offset 2 = _ := remoteStart_succ counts offset 1
    have hend : remoteStart counts offset 2 ≤ 65536 := by
      rw [remoteStart]
      omega
    have hfirst : remoteStart counts offset 1 ≤ 65535 := by omega
    exact ⟨plan_initWithLocalDeployment hl.group_lt hoffset hfirst, hfirst, hend⟩
  refine ⟨initPortsConfig_eq hmap offset, ?_, ?_, ?_⟩
  · intro l l' port hl hl' hport hport'
    have hfound : ∀ l : Listener, l.Valid counts →
        (deployed counts offset l.group l.node).entry l.node l.service = .ok port →
          port = plannedPort counts offset l := by
      intro l hl hport
      rcases entry_eq (hplan l hl).1 (hplan l hl).2.1 hl with hentry | ⟨hentry, -⟩
      · rw [hentry] at hport
        cases hport
        rfl
      · rw [hentry] at hport
        cases hport
    have hsame := (hfound l hl hport).symm.trans (hfound l' hl' hport')
    rw [plannedPort, plannedPort] at hsame
    exact place_inj hl hl' (by omega)
  · intro l hl
    rcases entry_eq (hplan l hl).1 (hplan l hl).2.1 hl with hentry | ⟨-, hservice, hlarge⟩
    · exact .inl hentry
    · right
      have hne : counts ≠ [] := length_pos_iff.mp (Nat.zero_lt_of_lt hl.group_lt)
      obtain ⟨last, hlast, hplace⟩ := exists_last_place hne hsizes
      have hle := (hplan l hl).2.2
      rw [remoteStart] at hle hlarge
      refine ⟨hservice, last, hlast, ?_⟩
      rw [plannedPort]
      omega
  · intro group node node' t hnode hnode' ht
    have hrow := (hplan ⟨group, node, .localService t⟩ ⟨hnode, ht⟩).1.localPorts t ht
    have hrow' := (hplan ⟨group, node', .localService t⟩ ⟨hnode', ht⟩).1.localPorts t ht
    rw [ZMQPortUtil.entry, ZMQPortUtil.entry, hrow, hrow']

/-- A region with one node and a region with two, from port 10000 on. -/
theorem local_deployment_ports_three_nodes :
    initPortsConfig 10000 [(1, 2), (0, 1)] false =
      .ok [(1, [deployed [1, 2] 10000 1 0, deployed [1, 2] 10000 1 1]),
        (0, [deployed [1, 2] 10000 0 0])] ∧
    (deployed [1, 2] 10000 1 0).entry 1 (.localService .BFT_RPC) =
      (deployed [1, 2] 10000 1 1).entry 1 (.localService .BFT_RPC) := by
  have hports : ∀ l : Listener, l.Valid [1, 2] → plannedPort [1, 2] 10000 l ≤ 65535 := by
    intro l hl
    have hlt : place [1, 2] l < 33 := place_lt hl
    rw [plannedPort]
    omega
  have hsizes : ∀ n ∈ [1, 2], 1 ≤ n := by decide
  have hmap : [(1, 2), (0, 1)].Perm (regionMap [1, 2]) := Perm.swap (0, 1) (1, 2) []
  obtain ⟨hconfig, -, -, hagree⟩ := local_deployment_ports hsizes hmap (by decide) hports
  exact ⟨hconfig, hagree 1 0 1 .BFT_RPC (by decide) (by decide) (by decide)⟩

end MassBFT.Common
