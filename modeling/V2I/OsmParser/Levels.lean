import V2I.Lib.Bisection
import V2I.Lib.Qsort
import V2I.Utils.Json

/-!
# V2I.OsmParser.Levels

The levels of the configuration file: `load_configfile_parse_level` with `fix_level_highway_types`,
and the road types that a level allows (`map_level::allowed_type`).
-/

namespace V2I.OsmParser

/-! ## Road types -/

/-- The `TAG_HIGHWAY_` constants, in the order of their numbers. -/
inductive TagHighway
  | motorway | trunk | primary | secondary | tertiary | unclassified | residential
  | motorwayLink | trunkLink | primaryLink | secondaryLink | tertiaryLink
  | livingStreet | service | pedestrian | track | busGuideway | escape | raceway | road | busway
  | footway | bridleway | steps | corridor | path | cycleway
  | planned | proposed | construction
  | busStop | crossing | elevator | emergencyBay | emergencyAccessPoint | giveWay | milestone
  | miniRoundabout | motorwayJunction | passingPlace | platform | restArea | speedCamera
  | streepLamp | services | stop | trafficMirror | trafficSignals | trailhead | turningCircle
  | turningLoop | tollGantry
  deriving DecidableEq

/-- The number of a constant. -/
def TagHighway.toInt (tag : TagHighway) : ℤ := tag.ctorIdx

/-- `TAG_HIGHWAY_END_OF_OTHER_FEATURES` -/
def TagHighway.endOfOtherFeatures : TagHighway := tollGantry

/-- `_highway_type` -/
def highwayTypes : List String := [
  "motorway",
  "trunk", "primary", "secondary",
  "tertiary", "unclassified", "residential",
  "resdential",
  "motorway_link", "trunk_link", "primary_link",
  "secondary_link", "tertiary_link",
  "living_street", "service", "pedestrian",
  "track", "bus_guideway", "escape", "raceway",
  "road", "busway",
  "footway", "bridleway", "steps", "corridor", "path",
  "cycleway",
  "planned", "proposed", "construction",
  "bus_stop", "crossing", "elevator", "emergency_bay",
  "emergency_access_point", "give_way", "milestone",
  "mini_roundabout", "motorway_junction", "passing_place",
  "platform", "rest_area", "speed_camera", "street_lamp",
  "services", "stop", "traffic_mirror", "traffic_signals",
  "trailhead", "turning_circle", "turning_loop",
  "toll_gantry",
  "cycleway"]

/-- `_highway_type_converter`; the second `cycleway` of the names, never found, has no entry. -/
def highwayTypeConverter : List TagHighway := [
  .motorway, .trunk, .primary, .secondary, .tertiary, .unclassified, .residential, .residential,
  .motorwayLink, .trunkLink, .primaryLink, .secondaryLink, .tertiaryLink,
  .livingStreet, .service, .pedestrian, .track, .busGuideway, .escape, .raceway, .road, .busway,
  .footway, .bridleway, .steps, .corridor, .path, .cycleway,
  .planned, .proposed, .construction,
  .busStop, .crossing, .elevator, .emergencyBay, .emergencyAccessPoint, .giveWay, .milestone,
  .miniRoundabout, .motorwayJunction, .passingPlace, .platform, .restArea, .speedCamera,
  .streepLamp, .services, .stop, .trafficMirror, .trafficSignals, .trailhead, .turningCircle,
  .turningLoop, .tollGantry]

def inlist (list : List String) (k : String) : Option ℕ := list.findIdx? (· == k)

/-- `get_highway_type`; `none` stands for `-1`. -/
def getHighwayType (name : String) : Option ℤ :=
  if name = "" then none
  else ((inlist highwayTypes name).bind (highwayTypeConverter[·]?)).map TagHighway.toInt

/-- A number of a road type. -/
def IsHighwayType (type : ℤ) : Prop := 0 ≤ type ∧ type ≤ TagHighway.endOfOtherFeatures.toInt

instance (type : ℤ) : Decidable (IsHighwayType type) := inferInstanceAs (Decidable (_ ∧ _))

theorem TagHighway.isHighwayType_toInt (tag : TagHighway) : IsHighwayType tag.toInt := by
  cases tag <;> decide

theorem isHighwayType_of_name {name : String} {tid : ℤ} (h : getHighwayType name = some tid) :
    IsHighwayType tid := by
  rw [getHighwayType] at h
  split at h
  · cases h
  · obtain ⟨tag, -, rfl⟩ := Option.map_eq_some_iff.mp h
    exact tag.isHighwayType_toInt

/-! ## Levels -/

structure MapLevel where
  row : ℤ := 0
  col : ℤ := 0
  blkMaxNodes : ℤ := 0
  types : List ℤ := []
  deriving DecidableEq

/-- `allowed_type` -/
def MapLevel.allowedType (level : MapLevel) (type : ℤ) : Bool :=
  if level.types = [] then IsHighwayType type
  else bisect level.types type 0 level.types.length

inductive SrcfileType
  | unknown | osm | odr
  deriving DecidableEq

/-- `cmdline_parser`, as far as the levels go. -/
structure CmdlineParser where
  srcfileType : SrcfileType
  maplevels : Option (List MapLevel)
  needStatistics : Bool
  deriving DecidableEq

/-- How `load_configfile_parse_level` fails: with what it returns, or at an assertion. -/
inductive LevelFault
  | ret (code : ℤ)
  | assertion
  deriving DecidableEq

/-- A number stored in an `int`. -/
def asInt (n : ℤ) : ℤ := (BitVec.ofInt 32 n).toInt

/-- A type is added once. -/
def addType (types : List ℤ) (tid : ℤ) : List ℤ := if tid ∈ types then types else types ++ [tid]

/-- The loop over the road types of an item. -/
def readTypes : List Jsonobject → List ℤ → Except LevelFault (List ℤ)
  | [], types => .ok types
  | .string name :: jtypes, types =>
      match getHighwayType name with
      | none => .error (.ret (-9))
      | some tid => readTypes jtypes (addType types tid)
  | _ :: _, _ => .error (.ret (-8))

/-- The types of a level from its item; `last` tells the last item of the file. -/
def parseTypes (last : Bool) (jtypes : Jsonobject) (types : List ℤ) : Except LevelFault (List ℤ) :=
  match jtypes with
  | .constNullObject => if last then .ok types else .error (.ret (-10))
  | .array items => if last then .ok [] else readTypes items []
  | _ => .error (.ret (-7))

def parseBlkMaxNodes (jblkmaxnodes : Jsonobject) (blkMaxNodes : ℤ) : ℤ :=
  match jblkmaxnodes with
  | .number valueint _ => asInt valueint
  | _ => blkMaxNodes

/-- One round of the loop over the items. -/
def parseItem (cnt i : ℕ) (jitem : Jsonobject) (maplevels : List MapLevel) :
    Except LevelFault (List MapLevel) :=
  match jitem with
  | .object _ =>
      match jitem.getMember "level" with
      | .number valueint _ =>
          let level := asInt valueint
          if level < 0 ∨ level ≥ cnt then .error (.ret (-5))
          else
            let maplevel := maplevels.getD level.toNat {}
            if maplevel.row ≠ 0 then .error (.ret (-6))
            else
              let blkMaxNodes :=
                parseBlkMaxNodes (jitem.getMember "block-max-nodes") maplevel.blkMaxNodes
              match parseTypes (i + 1 = cnt) (jitem.getMember "road-types") maplevel.types with
              | .error e => .error e
              | .ok types => .ok (maplevels.set level.toNat ⟨-1, -1, blkMaxNodes, types⟩)
      | _ => .error (.ret (-4))
  | _ => .error (.ret (-3))

/-- The loop over the items, from the item with number `i`. -/
def parseItems (cnt : ℕ) : ℕ → List Jsonobject → List MapLevel → Except LevelFault (List MapLevel)
  | _, [], maplevels => .ok maplevels
  | i, jitem :: jlevels, maplevels =>
      match parseItem cnt i jitem maplevels with
      | .error e => .error e
      | .ok maplevels => parseItems cnt (i + 1) jlevels maplevels

def typesSorter (aa bb : ℤ) : Ordering := if aa > bb then .gt else if aa < bb then .lt else .eq

section Load

variable (q : Qsort ℤ)

/-- One round of the loop of `fix_level_highway_types`: level `i` goes into level `idx` and is
sorted. -/
def copyTypes (idx : ℕ) (maplevels : List MapLevel) (i : ℕ) : List MapLevel :=
  let types := (maplevels.getD i {}).types
  let maplevels := maplevels.modify idx fun curr => { curr with types := curr.types ++ types }
  maplevels.modify i fun level => { level with types := q.sort typesSorter types }

def fixLevelHighwayTypes (idx total : ℕ) (maplevels : List MapLevel) :
    Except LevelFault (List MapLevel) :=
  if idx + 1 = total then
    if (maplevels.getD idx {}).types = [] then .ok maplevels else .error .assertion
  else .ok ((List.range idx).foldl (copyTypes q idx) maplevels)

/-- One round of the loop that verifies the levels. -/
def verifyLevel (cnt : ℕ) (maplevels : List MapLevel) (i : ℕ) : Except LevelFault (List MapLevel) :=
  if (maplevels.getD i {}).row = 0 then .error (.ret (-11))
  else fixLevelHighwayTypes q i cnt maplevels

def loadConfigfileParseLevel (parser : CmdlineParser) (jobj : Jsonobject) :
    Except LevelFault CmdlineParser :=
  if parser.srcfileType ≠ .osm then .ok parser
  else
    match jobj.getMember "levels" with
    | .array jlevels =>
        let cnt := jlevels.length
        if cnt = 0 then .error (.ret (-2))
        else do
          let maplevels ← parseItems cnt 0 jlevels (List.replicate (cnt + 1) {})
          let maplevels ← (List.range cnt).foldlM (verifyLevel q cnt) maplevels
          pure { parser with maplevels := some maplevels, needStatistics := true }
    | _ => .error (.ret (-1))

end Load

end V2I.OsmParser
