import V2I.Lib.Machine
import V2I.Lib.StdMap

/-!
# V2I.Snapshot.LightMgr

`vss_light_mgr` of `kafka-consumer.cpp`: the Kafka thread reports the states of traffic
lights, the planner of a junction asks for those of its own. A light may hang at several
junctions. Every call runs under `_light_mut`, so the threads' calls come one after the
other, in any order.

The `light_info` that were made stand in `heap`, and a shared pointer is an index in it. A
call has no result (`none`) where the code follows a null pointer.
-/

namespace V2I.LightMgr

/-- `light_info` -/
structure LightInfo where
  id : Int32
  timestamp : UInt64
  state : Int32
  enttime : Int32
  deriving DecidableEq

/-- `junc_lights` -/
structure JuncLights where
  update : Bool
  lights : StdMap Int32 ℕ
  deriving DecidableEq

/-- `vss_light_mgr` -/
structure VssLightMgr where
  heap : List LightInfo
  lights : StdMap Int32 ℕ
  lightJuncs : StdMap Int32 (List Int32)
  juncLights : StdMap Int32 JuncLights
  deriving DecidableEq

/-- `vss_light_mgr()` -/
def VssLightMgr.new : VssLightMgr := ⟨[], .empty, .empty, .empty⟩

/-- Negative return values. -/
inductive Error where
  | ebadparm
  | enotfound
  | enotavail
  | enotallowed
  deriving DecidableEq

/-- A return value, 0 for success. -/
abbrev Reply := Except Error Unit

/-! ## The calls -/

/-- The `light_info` of a light, a new one for an unknown light. -/
def lightOf (s : VssLightMgr) (lightId : Int32) : VssLightMgr × ℕ :=
  match s.lights.find lightId with
  | some ptr => (s, ptr)
  | none =>
      ({ s with heap := s.heap ++ [⟨lightId, 0, 1, 0⟩], lights := s.lights.set lightId s.heap.length },
        s.heap.length)

/-- `add_light(junc_id, light_id)` -/
def addLight (s : VssLightMgr) (juncId lightId : Int32) : VssLightMgr × Reply :=
  if lightId < 0 then (s, .error .ebadparm)
  else
    let junc := (s.juncLights.find juncId).getD ⟨true, .empty⟩
    let juncs := (s.lightJuncs.find lightId).getD []
    let light := lightOf s lightId
    ({ light.1 with
        juncLights := s.juncLights.set juncId ⟨true, junc.lights.set lightId light.2⟩
        lightJuncs := s.lightJuncs.set lightId (if juncId ∈ juncs then juncs else juncs ++ [juncId]) },
      .ok ())

/-- `remove_light(junc_id, light_id)` behind its checks: a light without a junction goes. -/
def detachLight (s : VssLightMgr) (juncId lightId : Int32) (junc : JuncLights) : VssLightMgr :=
  let s := { s with
    juncLights := s.juncLights.set juncId { junc with lights := junc.lights.erase lightId } }
  let juncs := ((s.lightJuncs.find lightId).getD []).filter (· ≠ juncId)
  if juncs = [] then
    { s with lightJuncs := s.lightJuncs.erase lightId, lights := s.lights.erase lightId }
  else { s with lightJuncs := s.lightJuncs.set lightId juncs }

/-- `remove_light(junc_id, light_id)` -/
def removeLight (s : VssLightMgr) (juncId lightId : Int32) : VssLightMgr × Reply :=
  if lightId < 0 then (s, .error .ebadparm)
  else
    match s.juncLights.find juncId with
    | none => (s, .error .enotfound)
    | some junc =>
        match junc.lights.find lightId with
        | none => (s, .error .enotfound)
        | some _ => (detachLight s juncId lightId junc, .ok ())

/-- The loop of `get_light_state`: copy the states of the lights of a junction. -/
def readStates (heap : List LightInfo) :
    List (Int32 × ℕ) → StdMap Int32 Int32 → Option (StdMap Int32 Int32)
  | [], lights => some lights
  | (lightId, ptr) :: rest, lights =>
      match heap[ptr]? with
      | none => none
      | some light => readStates heap rest (lights.set lightId light.state)

/-- `get_light_state(junc_id, lights)`; the map behind `lights` comes back. -/
def getLightState (s : VssLightMgr) (juncId : Int32) (lights : Option (StdMap Int32 Int32)) :
    Option (VssLightMgr × Option (StdMap Int32 Int32) × Reply) :=
  match lights with
  | none => some (s, none, .error .ebadparm)
  | some lights =>
      match s.juncLights.find juncId with
      | none => some (s, some lights, .error .enotfound)
      | some junc =>
          if !junc.update then some (s, some lights, .error .enotavail)
          else
            (readStates s.heap junc.lights.entries lights).map fun lights =>
              ({ s with juncLights := s.juncLights.set juncId { junc with update := false } },
                some lights, .ok ())

/-- A message: the numbers in its fields, `none` for a field that is not there or not a
number. -/
structure LightMsg where
  lightId : Option Int64
  timeStamp : Option Int64
  likelyEndTime : Option Int64
  lightState : Option Int64
  deriving DecidableEq

/-- The loop at the end of `update_light_state`: tell every junction of the light. -/
def flagJuncs (juncs : List Int32) (m : StdMap Int32 JuncLights) : StdMap Int32 JuncLights :=
  juncs.foldl (fun m juncId => m.modify juncId fun junc => { junc with update := true }) m

/-- `update_light_state(light)` behind its checks. -/
def writeState (s : VssLightMgr) (id : Int32) (ptr : ℕ) (timestamp : UInt64)
    (endtime state : Int32) : Option VssLightMgr :=
  match s.heap[ptr]? with
  | none => none
  | some light =>
      let light := { light with enttime := endtime, timestamp := timestamp }
      if light.state = state then some { s with heap := s.heap.set ptr light }
      else
        let s := { s with heap := s.heap.set ptr { light with state := state } }
        match s.lightJuncs.find id with
        | none =>
            -- `_light_juncs[id]` makes the empty set it then walks over
            some { s with lights := s.lights.erase id, lightJuncs := s.lightJuncs.set id [] }
        | some juncs =>
            if juncs.all fun juncId => (s.juncLights.find juncId).isSome then
              some { s with juncLights := flagJuncs juncs s.juncLights }
            else none

/-- `update_light_state(light)`: no message stands for a null pointer or for a text that is
not JSON. -/
def updateLightState (s : VssLightMgr) (light : Option LightMsg) : Option (VssLightMgr × Reply) :=
  match light with
  | none => some (s, .error .ebadparm)
  | some msg =>
      match msg.lightId with
      | none => some (s, .error .ebadparm)
      | some jid =>
          match s.lights.find jid.toInt32 with
          | none => some (s, .error .enotallowed)
          | some ptr =>
              match msg.timeStamp, msg.lightState with
              | some timestamp, some state =>
                  let endtime := (msg.likelyEndTime.map Int64.toInt32).getD (-1)
                  (writeState s jid.toInt32 ptr timestamp.toUInt64 endtime state.toInt32).map (·, .ok ())
              | _, _ => some (s, .error .ebadparm)

/-! ## The manager and its consumers -/

/-- The manager, and the `_light_info` of the planner of each junction. -/
structure World where
  mgr : VssLightMgr
  consumers : Int32 → StdMap Int32 Int32

/-- Nothing was added, and no planner has asked. -/
def World.new : World := ⟨.new, fun _ => .empty⟩

/-- A call of one of the threads. -/
inductive Call where
  | addLight (juncId lightId : Int32)
  | removeLight (juncId lightId : Int32)
  | updateLightState (light : Option LightMsg)
  | getLightState (juncId : Int32)

def step (w : World) : Call → Option (World × Reply)
  | .addLight juncId lightId =>
      let r := addLight w.mgr juncId lightId
      some ({ w with mgr := r.1 }, r.2)
  | .removeLight juncId lightId =>
      let r := removeLight w.mgr juncId lightId
      some ({ w with mgr := r.1 }, r.2)
  | .updateLightState light =>
      (updateLightState w.mgr light).map fun r => ({ w with mgr := r.1 }, r.2)
  | .getLightState juncId =>
      (getLightState w.mgr juncId (some (w.consumers juncId))).map fun r =>
        ({ mgr := r.1, consumers := Function.update w.consumers juncId (r.2.1.getD .empty) }, r.2.2)

end V2I.LightMgr
