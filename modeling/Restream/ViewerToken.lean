import Restream.StageText
import Restream.VideoCodec

/-! The tokens that let a viewer subscribe to a pipeline at the MoQ origin, with an
exact base64 codec and a keyed function for the MAC. -/

namespace Restream.Moq

open List Codec Option

structure TokenLibrary where
  encode : List UInt8 → List Char
  decode : List Char → Option (List UInt8)
  decode_eq_some_iff : ∀ text bytes, decode text = some bytes ↔ text = encode bytes
  dot_notMem_encode : ∀ bytes, '.' ∉ encode bytes
  hmacSha256 : List UInt8 → List UInt8 → List UInt8
  length_hmacSha256 : ∀ key message, (hmacSha256 key message).length = 32

def tokenTtl : Nat := 60

def asBytes (text : String) : List UInt8 := text.toByteArray.data.toList

def fromUtf8 (bytes : List UInt8) : Option String := String.fromUTF8? ⟨bytes.toArray⟩

def be64 (n : Nat) : List UInt8 := be32 (n / 2 ^ 32) ++ be32 n

def message (pipelineId : String) (expiry : Nat) : List UInt8 :=
  asBytes "restream-moq-origin-token\x00" ++ be64 (asBytes pipelineId).length ++
    asBytes pipelineId ++ be64 expiry

def constantTimeEq (left right : List UInt8) : Bool :=
  (left.zip right).foldl (fun diff x => diff ||| (x.1 ^^^ x.2)) 0 = 0

inductive TokenError where
  | malformed
  | forged
  | expired

namespace TokenLibrary

def mac (lib : TokenLibrary) (key : List UInt8) (pipelineId : String) (expiry : Nat) : List UInt8 :=
  lib.hmacSha256 key (message pipelineId expiry)

def format (lib : TokenLibrary) (pipelineId : String) (expiry : List Char) (mac : List UInt8) :
    List Char :=
  ['.'].intercalate ["v1".toList, lib.encode (asBytes pipelineId), expiry, lib.encode mac]

def mint (lib : TokenLibrary) (key : List UInt8) (pipelineId : String) (nowSecs : Nat) :
    List Char × Nat :=
  let expiry := min (nowSecs + tokenTtl) (2 ^ 64 - 1)
  (lib.format pipelineId (Nat.toDigits 10 expiry) (lib.mac key pipelineId expiry), expiry)

def verify (lib : TokenLibrary) (key : List UInt8) (token : List Char) (nowSecs : Nat) :
    Except TokenError String :=
  match token.splitOn '.' with
  | [version, pipeline, expiry, mac] =>
    if version ≠ "v1".toList then .error .malformed
    else
      match (lib.decode pipeline).bind fromUtf8, parseUsize expiry,
        (lib.decode mac).filter (·.length = 32) with
      | some pipeline, some expiry, some presented =>
        if ¬constantTimeEq presented (lib.mac key pipeline expiry) then .error .forged
        else if min (nowSecs + tokenTtl) (2 ^ 64 - 1) < expiry then .error .forged
        else if expiry < nowSecs then .error .expired
        else .ok pipeline
      | _, _, _ => .error .malformed
  | _ => .error .malformed

end TokenLibrary

theorem fromUtf8_eq_some_iff : fromUtf8 bytes = some text ↔ bytes = asBytes text := by
  unfold fromUtf8 String.fromUTF8? asBytes
  constructor
  · intro h
    split at h
    · cases h
      rfl
    · cases h
  · rintro rfl
    exact dif_pos text.isValidUTF8

theorem asBytes_inj (h : asBytes a = asBytes b) : a = b :=
  some.inj ((fromUtf8_eq_some_iff.mpr rfl).symm.trans (fromUtf8_eq_some_iff.mpr h))

theorem foldl_or_eq_zero {left right : List UInt8} (h : left.length = right.length) :
    (left.zip right).foldl (fun diff x => diff ||| (x.1 ^^^ x.2)) diff = 0 ↔
    diff = 0 ∧ left = right := by
  induction left generalizing right diff with
  | nil => simp [length_eq_zero_iff.mp h.symm]
  | cons x left ih =>
    cases right with
    | nil => cases h
    | cons y right =>
      simp [ih (Nat.succ.inj h), UInt8.or_eq_zero_iff, and_assoc]

theorem constantTimeEq_iff (h : left.length = right.length) :
    constantTimeEq left right = true ↔ left = right := by
  simp only [constantTimeEq, decide_eq_true_eq, foldl_or_eq_zero h, true_and]

theorem be64_inj (ha : a < 2 ^ 64) (hb : b < 2 ^ 64) (h : be64 a = be64 b) : a = b := by
  simp only [be64, be32, cons_append, nil_append, cons.injEq,
    ← UInt8.toNat_inj, UInt8.toNat_ofNat'] at h
  omega

theorem message_inj (he : e < 2 ^ 64) (he' : e' < 2 ^ 64) (h : message a e = message b e') :
    a = b ∧ e = e' := by
  have hbe (n) : (be64 n).length = 8 := rfl
  have hlen := congrArg length h
  simp only [message, length_append, hbe] at hlen
  obtain ⟨hfront, hback⟩ := append_inj h (by simp only [length_append, hbe]; omega)
  exact ⟨asBytes_inj (append_inj hfront (by simp only [length_append, hbe])).2, be64_inj he he' hback⟩

namespace TokenLibrary

variable {lib : TokenLibrary} {key : List UInt8} {token : List Char} {now : Nat} {pipeline : String}

theorem verify_ok (h : lib.verify key token now = .ok pipeline) :
    ∃ text expiry, parseUsize text = some expiry ∧
    now ≤ expiry ∧ expiry ≤ now + tokenTtl ∧
    token = lib.format pipeline text (lib.mac key pipeline expiry) := by
  unfold verify at h
  split at h
  · next version text expiry mac hparts =>
    split at h
    · cases h
    · next hv =>
      split at h
      · next id e presented hid he hp =>
        obtain ⟨bytes, hbytes, hutf⟩ := bind_eq_some_iff.mp hid
        obtain ⟨hmac, hlen⟩ := filter_eq_some_iff.mp hp
        split at h
        · cases h
        · next hc =>
          split at h
          · cases h
          · split at h
            · cases h
            · cases h
              have hm : presented = lib.mac key pipeline e :=
                (constantTimeEq_iff
                  ((of_decide_eq_true hlen).trans (lib.length_hmacSha256 _ _).symm)).mp
                  (Decidable.not_not.mp hc)
              refine ⟨expiry, e, he, by omega, by omega, ?_⟩
              rw [format, ← hm, ← fromUtf8_eq_some_iff.mp hutf,
                ← (lib.decode_eq_some_iff _ _).mp hbytes, ← (lib.decode_eq_some_iff _ _).mp hmac,
                ← Decidable.not_not.mp hv, ← hparts, intercalate_splitOn]
      · cases h
  · cases h

theorem verify_format (hd : '.' ∉ text) (he : parseUsize text = some expiry) :
    lib.verify key (lib.format pipeline text (lib.mac key pipeline expiry)) now =
      if min (now + tokenTtl) (2 ^ 64 - 1) < expiry then .error .forged
      else if expiry < now then .error .expired else .ok pipeline := by
  have hs : (lib.format pipeline text (lib.mac key pipeline expiry)).splitOn '.' =
      ["v1".toList, lib.encode (asBytes pipeline), text,
        lib.encode (lib.mac key pipeline expiry)] := by
    refine splitOn_intercalate '.' (fun part hp => ?_) (by simp)
    simp only [mem_cons, not_mem_nil, or_false] at hp
    rcases hp with rfl | rfl | rfl | rfl
    · decide
    · exact lib.dot_notMem_encode _
    · exact hd
    · exact lib.dot_notMem_encode _
  have hdec (bytes) : lib.decode (lib.encode bytes) = some bytes :=
    (lib.decode_eq_some_iff _ _).mpr rfl
  have hl : (lib.mac key pipeline expiry).length = 32 := lib.length_hmacSha256 _ _
  simp only [verify, hs, hdec, he, ne_eq, not_true_eq_false, if_false, bind_some,
    fromUtf8_eq_some_iff.mpr rfl, filter_some, hl, decide_true,
    if_true, (constantTimeEq_iff rfl).mpr rfl]

/-- A token is accepted for the pipeline and expiry that its MAC was made for and no other,
and a minted one for as long as it lives. -/
theorem viewer_token_sound (lib : TokenLibrary) (key : List UInt8) :
    (∀ token now pipeline, lib.verify key token now = .ok pipeline →
      ∃ text expiry, parseUsize text = some expiry ∧
      now ≤ expiry ∧ expiry ≤ now + tokenTtl ∧
      token = lib.format pipeline text (lib.hmacSha256 key (message pipeline expiry))) ∧
    (∀ a b e e', e < 2 ^ 64 → e' < 2 ^ 64 → (a, e) ≠ (b, e') → message a e ≠ message b e' ∧
      (lib.mac key a e = lib.mac key b e' → ∃ m m', m ≠ m' ∧
        lib.hmacSha256 key m = lib.hmacSha256 key m')) ∧
    ∀ pipeline start now, start + 120 < 2 ^ 64 →
      (lib.verify key (lib.mint key pipeline start).1 now = .ok pipeline ↔
        start ≤ now ∧ now ≤ start + 60) := by
  refine ⟨fun _ _ _ => verify_ok, fun a b e e' he he' hne => ?_, fun pipeline start now hs => ?_⟩
  · have hm : message a e ≠ message b e' := fun h => hne (Prod.ext_iff.mpr (message_inj he he' h))
    exact ⟨hm, fun h => ⟨_, _, hm, h⟩⟩
  have ht : min (start + tokenTtl) (2 ^ 64 - 1) = start + 60 :=
    Nat.min_eq_left (by rw [tokenTtl]; omega)
  have hd : '.' ∉ Nat.toDigits 10 (start + 60) := fun h =>
    absurd (Nat.isDigit_of_mem_toDigits (by decide) (by decide) h) (by decide)
  simp only [mint, ht]
  rw [verify_format hd (parseUsize_toDigits (by omega))]
  split
  · exact ⟨fun h => absurd h (by simp), fun h => by omega⟩
  · split
    · exact ⟨fun h => absurd h (by simp), fun h => by omega⟩
    · exact ⟨fun _ => by omega, fun _ => rfl⟩

def byteChar (byte : UInt8) : Char := Char.ofNat (256 + byte.toNat)

theorem byteChar_toNat (byte : UInt8) : (byteChar byte).toNat = 256 + byte.toNat := by
  have hlt := byte.toNat_lt
  rw [byteChar, Char.ofNat, dif_pos (.inl (by omega))]
  rfl

def charByte (c : Char) : Option UInt8 :=
  if 256 ≤ c.toNat ∧ c.toNat < 512 then some (UInt8.ofNat (c.toNat - 256)) else none

theorem charByte_eq_some_iff : charByte c = some byte ↔ c = byteChar byte := by
  unfold charByte
  constructor
  · intro h
    obtain ⟨⟨hge, hlt⟩, hb⟩ := ite_none_right_eq_some.mp h
    obtain rfl := Option.some.inj hb
    rw [byteChar, UInt8.toNat_ofNat', Nat.mod_eq_of_lt (by omega), Nat.add_sub_cancel' hge,
      Char.ofNat_toNat]
  · rintro rfl
    have hlt := byte.toNat_lt
    rw [byteChar_toNat, if_pos (by omega), Nat.add_sub_cancel_left, UInt8.ofNat_toNat]

/-- One character for each byte, and a MAC that is the start of the key and message. -/
def byteLibrary : TokenLibrary where
  encode := map byteChar
  decode := mapM charByte
  decode_eq_some_iff text bytes := by
    induction text generalizing bytes with
    | nil => simp [eq_comm]
    | cons c text ih =>
      cases bytes with
      | nil => simp [mapM_cons, bind_eq_some_iff]
      | cons byte bytes => simp [mapM_cons, bind_eq_some_iff, ih, charByte_eq_some_iff]
  dot_notMem_encode bytes h := by
    obtain ⟨byte, -, hb⟩ := mem_map.mp h
    have hn := congrArg Char.toNat hb
    rw [byteChar_toNat] at hn
    simp at hn
    omega
  hmacSha256 key message := (key ++ message ++ replicate 32 0).take 32
  length_hmacSha256 key message := by simp; omega

/-- A token minted at 1000 is accepted at 1060 and carries the MAC of its pipeline. -/
theorem viewer_token_sound_minted :
    byteLibrary.verify [1] (byteLibrary.mint [1] "live" 1000).1 1060 = .ok "live" ∧
    ∃ text expiry, parseUsize text = some expiry ∧ 1060 ≤ expiry ∧ expiry ≤ 1060 + tokenTtl ∧
      (byteLibrary.mint [1] "live" 1000).1 =
        byteLibrary.format "live" text (byteLibrary.hmacSha256 [1] (message "live" expiry)) := by
  have hsound := viewer_token_sound byteLibrary [1]
  have hok := (hsound.2.2 "live" 1000 1060 (by decide)).mpr ⟨by decide, by decide⟩
  exact ⟨hok, hsound.1 _ _ _ hok⟩

end TokenLibrary

end Restream.Moq
