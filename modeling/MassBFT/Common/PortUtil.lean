import Mathlib.Logic.Function.Basic

/-!
# Port plans

Every node computes its ports on its own, from the sizes of all regions. A `PortCalculator` hands
out ports with a running offset: for a local service it takes one port for each node of the
region and skips those of the other regions, for a remote service it takes one for each region and
skips those of all other nodes. With one host for all nodes, seven local services come first and
two remote ones behind them.

A service is dropped when the offset *behind* its last port is not a port any more, and then it
has no entry in the results.
-/

set_option autoImplicit false

namespace MassBFT.Common

/-- `PortType` -/
inductive PortType where
  | SERVER_TO_SERVER | CLIENT_TO_SERVER | USER_REQ_COLLECTOR | BFT_PAYLOAD | BFT_RPC
  | CFT_PEER_TO_PEER | LOCAL_BLOCK_ORDER | LOCAL_FRAGMENT_BROADCAST | REMOTE_FRAGMENT_RECEIVE
  deriving DecidableEq, Repr

/-- How a call can fail: a `CHECK`, `std::out_of_range`, or the end of a map that is read. -/
inductive Failure where
  | check | outOfRange | undefined
  deriving DecidableEq, Repr

/-! ## The calculator -/

structure PortCalculator where
  regionsNodeCount : List Nat
  portOffset : Int
  groupId : Nat
  nodeId : Nat
  results : List (List Int)
  deriving DecidableEq, Repr

namespace PortCalculator

/-- The constructor. -/
def newPortCalculator (regionsNodeCount : List Nat) (groupId nodeId : Nat) (offset : Int) :
    Except Failure PortCalculator :=
  match regionsNodeCount[groupId]? with
  | none => .error .check
  | some totalNodes =>
    if totalNodes ≤ nodeId then .error .check
    else .ok ⟨regionsNodeCount, offset, groupId, nodeId, []⟩

/-- `isPortValid` looks at the offset behind the ports that were taken. -/
def isPortValid (c : PortCalculator) : Bool := !(65535 < c.portOffset || c.portOffset ≤ 0)

/-- `getPorts`; `at` throws outside of the results. -/
def getPorts (c : PortCalculator) (index : Int) : Except Failure (List Int) :=
  if index < 0 then .error .outOfRange
  else
    match c.results[index.toNat]? with
    | none => .error .outOfRange
    | some result => .ok result

/-- The loop of `newHeterogeneousLocalServicePorts` from region `i` on. -/
def localLoop : (retCode : Int) → (i : Nat) → (regions : List Nat) → PortCalculator →
    Int × PortCalculator
  | retCode, _, [], c => (retCode, c)
  | retCode, i, totalNodes :: rest, c =>
    if i ≠ c.groupId then
      localLoop retCode (i + 1) rest { c with portOffset := c.portOffset + totalNodes }
    else
      let result := (List.range totalNodes).map fun (j : Nat) => c.portOffset + (j : Int)
      let c := { c with portOffset := c.portOffset + totalNodes }
      if !c.isPortValid then (retCode, c)
      else
        localLoop c.results.length (i + 1) rest { c with results := c.results ++ [result] }

def newHeterogeneousLocalServicePorts (c : PortCalculator) : Int × PortCalculator :=
  localLoop (-1) 0 c.regionsNodeCount c

def newHeterogeneousRemoteServicePorts (c : PortCalculator) : Int × PortCalculator :=
  let groupCount := c.regionsNodeCount.length
  let skipped := (c.regionsNodeCount.take c.groupId).foldl
    (fun (tmpOffset : Int) totalNodes => tmpOffset + (groupCount * totalNodes : Nat)) c.portOffset
  let tmpOffset := skipped + (groupCount * c.nodeId : Nat)
  let result := (List.range groupCount).map fun (i : Nat) => tmpOffset + (i : Int)
  let portOffset := c.regionsNodeCount.foldl
    (fun (portOffset : Int) totalNodes => portOffset + (groupCount * totalNodes : Nat)) c.portOffset
  let c := { c with portOffset := portOffset }
  if !c.isPortValid then (-1, c)
  else (c.results.length, { c with results := c.results ++ [result] })

def newHomogeneousLocalServicePorts (c : PortCalculator) : Int × PortCalculator :=
  let totalNodes := c.regionsNodeCount.getD c.groupId 0
  let result := List.replicate totalNodes c.portOffset
  let c := { c with portOffset := c.portOffset + 1 }
  if !c.isPortValid then (-1, c)
  else (c.results.length, { c with results := c.results ++ [result] })

def newHomogeneousRemoteServicePorts (c : PortCalculator) : Int × PortCalculator :=
  let groupCount := c.regionsNodeCount.length
  let result := (List.range groupCount).map fun (i : Nat) => c.portOffset + (i : Int)
  let c := { c with portOffset := c.portOffset + groupCount }
  if !c.isPortValid then (-1, c)
  else (c.results.length, { c with results := c.results ++ [result] })

end PortCalculator

/-! ## The plan of a node -/

structure ZMQPortUtil where
  portCalculator : PortCalculator
  remoteServicePortMapper : PortType → Option Int
  localServicePortMapper : PortType → List Int

namespace ZMQPortUtil

/-- The local services, in the order in which they get their ports. -/
def localServices : List PortType :=
  [.SERVER_TO_SERVER, .CLIENT_TO_SERVER, .USER_REQ_COLLECTOR, .BFT_PAYLOAD, .BFT_RPC,
    .CFT_PEER_TO_PEER, .LOCAL_BLOCK_ORDER]

/-- The remote services, behind the local ones. -/
def remoteServices : List PortType := [.LOCAL_FRAGMENT_BROADCAST, .REMOTE_FRAGMENT_RECEIVE]

/-- `_localServicePortMapper[portType].push_back(…)` -/
def addLocal (newPorts : PortCalculator → Int × PortCalculator) (u : ZMQPortUtil)
    (portType : PortType) : ZMQPortUtil :=
  { u with
    portCalculator := (newPorts u.portCalculator).2
    localServicePortMapper := Function.update u.localServicePortMapper portType
      (u.localServicePortMapper portType ++ [(newPorts u.portCalculator).1]) }

/-- `_remoteServicePortMapper[portType] = …` -/
def setRemote (newPorts : PortCalculator → Int × PortCalculator) (u : ZMQPortUtil)
    (portType : PortType) : ZMQPortUtil :=
  { u with
    portCalculator := (newPorts u.portCalculator).2
    remoteServicePortMapper := Function.update u.remoteServicePortMapper portType
      (some (newPorts u.portCalculator).1) }

def initWithDistributedDeployment (u : ZMQPortUtil) : ZMQPortUtil :=
  remoteServices.foldl (setRemote PortCalculator.newHomogeneousRemoteServicePorts)
    (localServices.foldl (addLocal PortCalculator.newHomogeneousLocalServicePorts) u)

def initWithLocalDeployment (u : ZMQPortUtil) : ZMQPortUtil :=
  remoteServices.foldl (setRemote PortCalculator.newHeterogeneousRemoteServicePorts)
    (localServices.foldl (addLocal PortCalculator.newHeterogeneousLocalServicePorts) u)

/-- `NewZMQPortUtil` for a vector of region sizes. -/
def newFromVector (regionNodesCount : List Nat) (groupId nodeId : Nat) (offset : Int)
    (distributed : Bool) : Except Failure ZMQPortUtil :=
  match PortCalculator.newPortCalculator regionNodesCount groupId nodeId offset with
  | .error what => .error what
  | .ok c =>
    let u : ZMQPortUtil := ⟨c, fun _ => none, fun _ => []⟩
    .ok (if distributed then u.initWithDistributedDeployment else u.initWithLocalDeployment)

/-- An entry of the map is written into the vector, which grows as needed. -/
def assign (nodeCountVector : List Nat) (it : Nat × Nat) : List Nat :=
  (if nodeCountVector.length ≤ it.1 then
    nodeCountVector ++ List.replicate (it.1 + 1 - nodeCountVector.length) 0
  else nodeCountVector).set it.1 it.2

/-- The vector of region sizes, from the entries of a map in the order of an iteration. -/
def nodeCountVector (regionNodesCount : List (Nat × Nat)) : List Nat :=
  regionNodesCount.foldl assign []

/-- `NewZMQPortUtil` for a map of region sizes. -/
def newZMQPortUtil (regionNodesCount : List (Nat × Nat)) (groupId nodeId : Nat) (offset : Int)
    (distributed : Bool) : Except Failure ZMQPortUtil :=
  newFromVector (nodeCountVector regionNodesCount) groupId nodeId offset distributed

/-- `InitPortsConfig`: the plans of all nodes, region by region. -/
def initPortsConfig (portOffset : Int) (regionNodesCount : List (Nat × Nat)) (distributed : Bool) :
    Except Failure (List (Nat × List ZMQPortUtil)) :=
  regionNodesCount.mapM fun it =>
    ((List.range it.2).mapM fun i =>
      newZMQPortUtil regionNodesCount it.1 i portOffset distributed).map (it.1, ·)

def getLocalServicePorts (u : ZMQPortUtil) (portType : PortType) (groupId : Nat) :
    Except Failure (List Int) :=
  match (u.localServicePortMapper portType)[groupId]? with
  | none => .error .check
  | some index => u.portCalculator.getPorts index

/-- `getRemoteServicePort`; for a service that is missing, the message reads the end of the map. -/
def getRemoteServicePort (u : ZMQPortUtil) (portType : PortType) (regionId : Nat) :
    Except Failure Int :=
  match u.remoteServicePortMapper portType with
  | none => .error .undefined
  | some index =>
    match u.portCalculator.getPorts index with
    | .error what => .error what
    | .ok ret =>
      match ret[regionId]? with
      | none => .error .outOfRange
      | some port => .ok port

end ZMQPortUtil

end MassBFT.Common
