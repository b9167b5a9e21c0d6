import Restream.Adts
import Restream.TsWire
import Restream.InputGate

/-! ADTS framing of a transport stream's audio: one AAC frame per unit, whatever the
PES boundaries. A frame can begin in one PES and end in the next. -/

namespace Restream.Mpegts

open Codec

def adtsHeaderLen : Nat := 7

def frameTicks90k : Int := 1024 * 90000

def step90k (frame : List UInt8) : Option Int :=
  (adtsSampleRate frame).map fun rate : Nat => frameTicks90k / (rate : Int)

/-- The length an ADTS header at the start of `data` names: a 12-bit sync word,
layer 0, and a length that covers at least the header. -/
def frameLen : List UInt8 → Option Nat
  | 0xFF :: b1 :: _ :: b3 :: b4 :: b5 :: _ :: _ =>
    let len := (b3 &&& 0x03).toNat * 2 ^ 11 + b4.toNat * 2 ^ 3 + (b5 &&& 0xE0).toNat / 2 ^ 5
    if b1 &&& 0xF6 = 0xF0 ∧ adtsHeaderLen ≤ len then some len else none
  | _ => none

def syncPrefix : List UInt8 → Bool
  | [0xFF] => true
  | 0xFF :: b1 :: _ => b1 &&& 0xF6 = 0xF0
  | _ => false

/-- Where the first frame in `data` starts: a header whose frame ends where another
starts, at the end of `data`, or past it; or the start of a header that `data` ends
inside. -/
def resync (data : List UInt8) : Option Nat :=
  (List.range data.length).find? fun start =>
    let rest := data.drop start
    match frameLen rest with
    | some len => rest.length ≤ len || syncPrefix (rest.drop len)
    | none => rest.length < adtsHeaderLen && syncPrefix rest

/-- A stream's framing across its PES packets: the start of a frame the last PES
ended inside, and the 90 kHz (pts, dts) of the next frame. -/
structure AdtsFraming where
  carry : List UInt8
  next : Option (Int × Int)
  deriving DecidableEq

inductive Carried where
  | completed (frame : List UInt8) (consumed : Nat)
  | pending
  | rejected

/-- What became of one PES: its frames were pushed, or it goes whole, since no known
sample rate steps its timestamps. -/
inductive Framed where
  | frames (first : Option (List UInt8))
  | whole (payload : List UInt8)

def audioUnit (trackIndex : Nat) (pts dts : Int) (payload : List UInt8) : MediaPacket :=
  { mediaType := .audio
    format := .raw
    isKeyframe := false
    trackIndex := trackIndex
    pts := tsToMs pts
    dts := tsToMs dts
    payload := payload }

namespace AdtsFraming

def new : AdtsFraming := { carry := [], next := none }

/-- Join the carried frame start with what of `data` completes it: a frame must end
where another starts or at the PES end, and a PES that starts with a frame of its own
must complete it. -/
def completeCarry (f : AdtsFraming) (data : List UInt8) : AdtsFraming × Carried :=
  let aligned := (frameLen data).isSome
  let header := (f.carry ++ data).take adtsHeaderLen
  match frameLen header with
  | some len =>
    let need := len - f.carry.length
    if need ≤ data.length then
      if data.drop need = [] ∨ syncPrefix (data.drop need) then
        ({ f with carry := [] }, .completed (f.carry ++ data.take need) need)
      else ({ f with carry := [] }, .rejected)
    else if aligned then ({ f with carry := [] }, .rejected)
    else ({ f with carry := f.carry ++ data }, .pending)
  | none =>
    if !aligned ∧ header.length < adtsHeaderLen ∧ syncPrefix header then
      ({ f with carry := f.carry ++ data }, .pending)
    else ({ f with carry := [] }, .rejected)

/-- Cut the frames off `rest`, `n` of them at most. The first one that starts in the PES
takes its timestamp, the others are stepped; a frame cut at the end is carried. -/
def cutFrames (trackIndex : Nat) (carried : Bool) (whole : List UInt8) :
    Nat → Option (Int × Int) → Option (Int × Int) → Option (List UInt8) → List UInt8 →
      AdtsFraming × List MediaPacket × Framed
  | 0, _, expected, first, _ => ({ carry := [], next := expected }, [], .frames first)
  | n + 1, pesFirst, expected, first, rest =>
    if rest = [] then ({ carry := [], next := expected }, [], .frames first)
    else
      match pesFirst <|> expected with
      | none => ({ carry := [], next := expected }, [], .frames first)
      | some (pts, dts) =>
        match frameLen rest with
        | some len =>
          if len ≤ rest.length then
            match step90k rest with
            | none =>
              if first.isNone && !carried then ({ carry := [], next := none }, [], .whole whole)
              else ({ carry := [], next := expected }, [], .frames first)
            | some step =>
              let unit := rest.take len
              let (f, pushed, framed) := cutFrames trackIndex carried whole n none
                (some (saturate (pts + step), saturate (dts + step)))
                  (first <|> some unit) (rest.drop len)
              (f, audioUnit trackIndex pts dts unit :: pushed, framed)
          else ({ carry := rest, next := some (pts, dts) }, [], .frames first)
        | none =>
          if rest.length < adtsHeaderLen ∧ syncPrefix rest then
            ({ carry := rest, next := some (pts, dts) }, [], .frames first)
          else ({ carry := [], next := expected }, [], .frames first)

/-- Frame the bytes behind a completed carry, or from the first frame start on. Bytes
with no frame start in them are dropped. -/
def frameFrom (data : List UInt8) (pesTimestamps : Option (Int × Int)) (trackIndex : Nat)
    (expected : Option (Int × Int)) (first : Option (List UInt8)) (resume : Option Nat) :
    AdtsFraming × List MediaPacket × Framed :=
  match resume <|> resync data with
  | none => ({ carry := [], next := expected }, [], .frames first)
  | some start =>
    cutFrames trackIndex resume.isSome (data.drop start)
      (data.length + 1) pesTimestamps expected first
      (data.drop start)

def frame (f : AdtsFraming) (data : List UInt8) (pesTimestamps : Option (Int × Int))
    (trackIndex : Nat) :
    AdtsFraming × List MediaPacket × Framed :=
  if f.carry = [] then frameFrom data pesTimestamps trackIndex f.next none none
  else
    match f.completeCarry data with
    | (_, .completed frame consumed) =>
      match f.next, step90k frame with
      | some (pts, dts), some step =>
        let (f, pushed, framed) := frameFrom data pesTimestamps trackIndex
          (some (saturate (pts + step), saturate (dts + step))) (some frame) (some consumed)
        (f, audioUnit trackIndex pts dts frame :: pushed, framed)
      | _, _ => frameFrom data pesTimestamps trackIndex f.next none (some consumed)
    | (f, .pending) => (f, [], .frames none)
    | (_, .rejected) => frameFrom data pesTimestamps trackIndex none none none

end AdtsFraming

end Restream.Mpegts
