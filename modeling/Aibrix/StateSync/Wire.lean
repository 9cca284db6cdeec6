import Aibrix.StateSync.Table

/-! # Blocks on the wire

`encodeBlock` and `decodeBlock` of `sync.go`, with what `encoding/json` makes of a `blockWire`. -/

namespace Aibrix.StateSync

open Lib KeyMap RadixCache List

/-- A JSON document. The numbers are those that an `int64` holds. -/
inductive Json where
  | null
  | bool (value : Bool)
  | num (value : Int)
  | str (value : String)
  | arr (items : List Json)
  | obj (fields : List (String × Json))

structure BlockWire where
  modelToPods : PodTable Int := ∅

/-! ## `json.Marshal` -/

variable {V W : Type}

/-- A map becomes an object. Its fields are sorted by key in the bytes, which a reader does not see. -/
def marshalMap (marshal : V → Json) (m : KeyMap String V) : Json := .obj (m.entries.map fun e => (e.1, marshal e.2))

def BlockWire.marshal (w : BlockWire) : Json :=
  .obj [("model_to_pods", marshalMap (marshalMap .num) w.modelToPods)]

/-! ## `json.Unmarshal` -/

variable (read : Json → Option V)

/-- A map is read into the one that is there. A value that is not of the type fails the whole document. -/
def unmarshalMap (start : KeyMap String V) : Json → Option (KeyMap String V)
  | .null => some ∅
  | .obj fields => fields.foldlM (fun m field => (read field.2).map (m.insert field.1)) start
  | _ => none

def unmarshalInt : Json → Option Int
  | .null => some 0
  | .num value => some value
  | _ => none

/-- Fields that `blockWire` does not have are skipped. The name of a field is matched in any case. -/
def BlockWire.unmarshal : Json → Option BlockWire
  | .null => some {}
  | .obj fields => fields.foldlM (fun w field =>
      if field.1 = "model_to_pods" ∨ field.1.toLower = "model_to_pods" then
        (unmarshalMap (unmarshalMap unmarshalInt ∅) w.modelToPods field.2).map BlockWire.mk
      else some w) {}
  | _ => none

/-! ## `encodeBlock` and `decodeBlock` -/

/-- `for key, v := range m` with `out[key] = f(v)`. -/
def rangeInto (f : V → W) (m : KeyMap String V) : KeyMap String W := mergeWith (fun _ v => f v) ∅ m

/-- `UnixNano` of a time, which is its nanoseconds since 1970 while they fit in an `int64`: the years 1678 to 2262. -/
def unixNano (t : Int) : Int := t

/-- `time.Unix` with whole seconds and nanoseconds beside them. -/
def timeUnix (sec nsec : Int) : Int := sec * 1000000000 + nsec

def encodeBlock (b : Block) : Json := BlockWire.marshal ⟨rangeInto (rangeInto unixNano) b⟩

def decodeBlock (data : Json) : Option Block :=
  (BlockWire.unmarshal data).map fun w => rangeInto (rangeInto (timeUnix 0)) w.modelToPods

/-! ## The round trip -/

theorem lookup_rangeInto (f : V → W) (m : KeyMap String V) (key : String) :
    (rangeInto f m).lookup key = (m.lookup key).map f := by
  unfold rangeInto
  rw [lookup_mergeWith]
  cases m.lookup key <;> rfl

theorem foldlM_fields {marshal : V → Json} {f : V → W} {read : Json → Option W} (hread : ∀ v, read (marshal v) = some (f v))
    (entries : List ((_ : String) × V)) (start : KeyMap String W) :
    (entries.map fun e => (e.1, marshal e.2)).foldlM (fun m field => (read field.2).map (m.insert field.1)) start =
      some (entries.foldl (fun m e => m.insert e.1 (f e.2)) start) := by
  induction entries generalizing start with
  | nil => rfl
  | cons e entries ih =>
    rw [map_cons, foldlM_cons, hread]
    exact ih _

/-- What is read is what the loop over the map would have put in. -/
theorem unmarshalMap_marshalMap {marshal : V → Json} {f : V → W} {read : Json → Option W}
    (hread : ∀ v, read (marshal v) = some (f v)) (m : KeyMap String V) :
    unmarshalMap read ∅ (marshalMap marshal m) = some (rangeInto f m) :=
  foldlM_fields hread m.entries ∅

theorem BlockWire.unmarshal_marshal (w : BlockWire) :
    BlockWire.unmarshal w.marshal = some ⟨rangeInto (rangeInto id) w.modelToPods⟩ := by
  have hmaps := unmarshalMap_marshalMap (unmarshalMap_marshalMap fun n : Int => (rfl : unmarshalInt (.num n) = some (id n)))
    w.modelToPods
  unfold BlockWire.unmarshal BlockWire.marshal
  dsimp only
  rw [foldlM_cons, if_pos (.inl rfl), hmaps]
  rfl

theorem lookup_decoded (b : Block) (model : String) :
    (rangeInto (rangeInto (timeUnix 0)) (rangeInto (rangeInto id) (rangeInto (rangeInto unixNano) b))).lookup model =
      (b.lookup model).map fun pods => rangeInto (timeUnix 0) (rangeInto id (rangeInto unixNano pods)) := by
  simp only [lookup_rangeInto, Option.map_map]
  rfl

theorem lookup_decoded_pods (pods : KeyMap String Int) (pod : String) :
    (rangeInto (timeUnix 0) (rangeInto id (rangeInto unixNano pods))).lookup pod = pods.lookup pod := by
  simp only [lookup_rangeInto, Option.map_map]
  cases pods.lookup pod with
  | none => rfl
  | some t => exact congrArg some (by simp [timeUnix, unixNano])

theorem decodeBlock_encodeBlock (b : Block) : ∃ b', decodeBlock (encodeBlock b) = some b' ∧ Block.Same b' b := by
  unfold decodeBlock encodeBlock
  rw [BlockWire.unmarshal_marshal]
  refine ⟨_, rfl, fun model => ?_, fun model pod => ?_⟩
  · rw [lookup_decoded, Option.isSome_map]
  · unfold Block.time
    rw [lookup_decoded]
    cases b.lookup model with
    | none => rfl
    | some pods => exact congrArg stamp (lookup_decoded_pods pods pod)

/-- The bytes that the replicas exchange. -/
def json : Codec where
  Data := Json
  encode := encodeBlock
  decode := decodeBlock
  round := decodeBlock_encodeBlock

end Aibrix.StateSync
