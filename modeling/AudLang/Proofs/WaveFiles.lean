import AudLang.Audio.Wave
import AudLang.Proofs.Outcome
import Mathlib

/-!
Sound files and the sound in them.

A sound file says what its samples are in little-endian numbers of fixed size, and a number that
fits is read as it was written.  So the chunks of a file are found where they were put, and what is
read is the segment that was written, as `decode_encode` says.  Samples of three bytes are the
exception: they are widened when they are read, so that no segment that was read has them
(`width_of_decode`).

The second half says what working on a segment does to its format and its length.
-/

namespace AudLang

namespace Segment

/-! ## Numbers in bytes -/

@[simp] lemma length_bytes (width : Nat) (n : Int) : (bytes width n).length = width := by
  induction width generalizing n with
  | zero => rfl
  | succ width ih => simp [bytes, ih]

lemma unsigned_bytes {width n : Nat} (h : n < Nat.pow 256 width) :
    unsigned (bytes width n) = n := by
  induction width generalizing n with
  | zero =>
    have hzero : n = 0 := by simpa using h
    simp [hzero, bytes, unsigned]
  | succ width ih =>
    have hlow : ((n : Int) % 256).toNat = n % 256 := by omega
    have hhigh : (n : Int) / 256 = (n / 256 : Nat) := by omega
    have hbound : n / 256 < Nat.pow 256 width := by
      apply Nat.div_lt_of_lt_mul
      rw [Nat.mul_comm]
      exact h
    rw [bytes, unsigned, hhigh, ih hbound, hlow]
    have hbyte : (UInt8.ofNat (n % 256)).toNat = n % 256 := by simp
    omega

end Segment

namespace Wave

open Segment

lemma bias_bias (b : Bytes) : bias (bias b) = b := by
  have hbyte : ∀ x : UInt8, x + 128 + 128 = x := by
    intro x
    rw [UInt8.add_assoc]
    simp
  simp [bias, List.map_map, Function.comp_def, hbyte]

@[simp] lemma length_bias (b : Bytes) : (bias b).length = b.length := by simp [bias]

/-! ## Reading what was written -/

variable {name size : Bytes} (hname : name.length = 4) (hsize : size.length = 4)

include hname hsize in
/-- A chunk that does not hold the samples is followed by others. -/
lemma chunks_cons (hne : name ≠ nameOf "data") (count : Nat) (rest : Bytes) :
    chunks (count + 1) (name ++ (size ++ rest)) =
      ⟨name, unsigned size, rest⟩ :: chunks count (rest.drop (unsigned size)) := by
  have hlong : ¬(name ++ (size ++ rest)).length < 8 := by
    simp only [List.length_append]
    omega
  have hrest : (name ++ (size ++ rest)).drop 8 = rest := by
    rw [← List.append_assoc]
    exact List.drop_left' (by simp [hname, hsize])
  rw [chunks, if_neg hlong]
  simp only [List.take_left' hname, List.drop_left' hname, List.take_left' hsize, hrest, if_neg hne]

include hsize in
lemma chunks_data (count : Nat) (rest : Bytes) :
    chunks (count + 1) (nameOf "data" ++ (size ++ rest))
      = [⟨nameOf "data", unsigned size, rest⟩] := by
  have hdata : (nameOf "data").length = 4 := by decide
  have hlong : ¬(nameOf "data" ++ (size ++ rest)).length < 8 := by
    simp only [List.length_append]
    omega
  have hrest : (nameOf "data" ++ (size ++ rest)).drop 8 = rest := by
    rw [← List.append_assoc]
    exact List.drop_left' (by simp [hdata, hsize])
  rw [chunks, if_neg hlong]
  simp only [List.take_left' hdata, List.drop_left' hdata, List.take_left' hsize, hrest, if_true]

/-- What a sound file says of its samples. -/
def description (s : Segment) : Bytes :=
  bytes 2 1 ++ bytes 2 s.channels ++ bytes 4 s.rate ++ bytes 4 (s.channels * s.rate * s.width)
    ++ bytes 2 s.frameWidth ++ bytes 2 (8 * s.width)

lemma header_append (s : Segment) (size : Nat) (body : Bytes) :
    (header s size ++ body).drop 12 =
      nameOf "fmt " ++ (bytes 4
        16 ++ (description s ++ (nameOf "data" ++ (bytes 4 size ++ body)))) := by
  have hhead : (nameOf "RIFF" ++ bytes 4 (36 + size) ++ nameOf "WAVE").length = 12 := by
    have hriff : (nameOf "RIFF").length = 4 := by decide
    have hwave : (nameOf "WAVE").length = 4 := by decide
    simp [hriff, hwave]
  have hsplit : header s size ++ body = (nameOf "RIFF" ++ bytes 4 (36 + size) ++ nameOf "WAVE") ++
      (nameOf "fmt " ++ (bytes 4
        16 ++ (description s ++ (nameOf "data" ++ (bytes 4 size ++ body))))) := by
    simp only [header, description, List.append_assoc]
  rw [hsplit, List.drop_left' hhead]

/-- The first chunk says what the samples are, the second one holds them. -/
lemma chunks_header (s : Segment) {size : Nat} (hsize : size < Nat.pow 2 32) (body : Bytes) :
    chunks 10 ((header s size ++ body).drop 12) =
      [⟨nameOf "fmt ", 16, description s ++ (nameOf "data" ++ (bytes 4 size ++ body))⟩,
        ⟨nameOf "data", size, body⟩] := by
  have hsixteen : unsigned (bytes 4 16) = 16 := by decide
  have hread : unsigned (bytes 4 size) = size := unsigned_bytes hsize
  have hdescription : (description s).length = 16 := by simp [description]
  rw [header_append, chunks_cons (by decide) (length_bytes _ _) (by decide), hsixteen,
    List.drop_left' hdescription, chunks_data (length_bytes _ _), hread]

/-- The numbers of a description are read where they stand, if they fit. -/
lemma number_description (s : Segment) (rest : Bytes) (hchannels : s.channels < Nat.pow 2 16)
    (hrate : s.rate < Nat.pow 2 32) (hwidth : s.width ≤ 4) :
    number (description s ++ rest) 0 2 = 1 ∧ number (description s ++ rest) 2 2 = s.channels ∧
      number (description s ++ rest) 4 4 = s.rate ∧
        number (description s ++ rest) 14 2 = 8 * s.width := by
  have hbits : 8 * s.width < Nat.pow 2 16 := by
    show 8 * s.width < 65536
    omega
  refine ⟨?_, ?_, ?_, ?_⟩
  · show unsigned (bytes 2 1) = 1
    decide
  · show unsigned (bytes 2 s.channels) = s.channels
    exact unsigned_bytes hchannels
  · show unsigned (bytes 4 s.rate) = s.rate
    exact unsigned_bytes hrate
  · show unsigned (bytes 2 (8 * s.width)) = 8 * s.width
    exact unsigned_bytes hbits

/-- A segment that could be written has a format that fits into the head. -/
structure Writable (s : Segment) : Prop where
  channels : s.channels < Nat.pow 2 16
  rate : s.rate < Nat.pow 2 32
  width : s.width ≤ 4
  size : s.data.length < Nat.pow 2 32
  bytes : (encode s).bytes = header s s.data.length ++ if s.width = 1 then bias s.data else s.data

lemma writable_of_encode {s : Segment} (h : (encode s).fault = none) : Writable s := by
  unfold encode at h
  extract_lets body whole at h
  split at h
  · cases h
  rename_i hsound
  split at h
  · cases h
  rename_i hfits
  split at h
  · cases h
  rename_i hsize
  have hbytes : (encode s).bytes = header s s.data.length ++ if s.width = 1 then bias
    s.data else s.data := by
    unfold encode
    rw [if_neg hsound, if_neg hfits, if_neg hsize]
  simp only [Bool.or_eq_true, decide_eq_true_eq, not_or, not_le] at hsound hfits hsize
  obtain ⟨⟨⟨hchannels, hwidth⟩, hnarrow⟩, -⟩ := hsound
  obtain ⟨⟨hspeed, hframe⟩, -⟩ := hfits
  refine ⟨?_, ?_, by omega, by omega, hbytes⟩
  · exact Nat.lt_of_le_of_lt (Nat.le_mul_of_pos_right _ (Nat.pos_of_ne_zero hwidth)) hframe
  · apply Nat.lt_of_le_of_lt _ hspeed
    rw [Nat.mul_assoc]
    exact Nat.le_trans (Nat.le_mul_of_pos_right _ (Nat.pos_of_ne_zero hwidth))
      (Nat.le_mul_of_pos_left _ (Nat.pos_of_ne_zero hchannels))

/-- Only a sound with channels and samples is written whole. -/
lemma frameWidth_of_encode {s : Segment} (h : (encode s).fault = none) : s.frameWidth ≠ 0 := by
  intro hzero
  have hnone : s.channels = 0 ∨ s.width = 0 := Nat.mul_eq_zero.1 hzero
  unfold encode at h
  extract_lets body whole at h
  rw [if_pos (by rcases hnone with h | h <;> simp [h])] at h
  cases h

/-- What is read from a file is the segment that was written, unless its samples are three bytes
wide. -/
lemma decode_encode {s : Segment} (h : (encode s).fault = none) (hwidth : s.width ≠ 3) :
    decode (encode s).bytes = some s := by
  have hs := writable_of_encode h
  obtain ⟨hcoding, hchannels, hrate, hbits⟩ :=
    number_description s (nameOf
      "data" ++ (bytes 4 s.data.length ++ if s.width = 1 then bias s.data else s.data))
      hs.channels hs.rate hs.width
  have hdivide : 8 * s.width / 8 = s.width := by omega
  rw [hs.bytes, decode, chunks_header s hs.size]
  by_cases hone : s.width = 1
  · -- the samples are turned over when they are written and turned back when they are read
    have hbias : bias ((bias s.data).take s.data.length) = s.data := by
      rw [List.take_of_length_le (by simp), bias_bias]
    have hself : (⟨s.channels, s.rate, 1, s.data⟩ : Segment) = s := by rw [← hone]
    simp only [hone, if_true] at hcoding hchannels hrate hbits ⊢
    simp [hcoding, hchannels, hrate, hbits, guard, hbias, hself]
  · simp only [hone, if_false] at hcoding hchannels hrate hbits ⊢
    simp [hcoding, hchannels, hrate, hbits, hdivide, hone, hwidth, guard]

/-- Samples of three bytes have been widened. -/
lemma width_of_decode {b : Bytes} {s : Segment} (h : decode b = some s) : s.width ≠ 3 := by
  simp only [decode, bind, Option.bind_eq_some_iff] at h
  obtain ⟨format, -, last, -, -, -, -, -, -, -, h⟩ := h
  split at h
  · cases h
    show (1 : Nat) ≠ 3
    decide
  · split at h
    · obtain ⟨-, -, h⟩ := Option.bind_eq_some_iff.1 h
      cases h
      show (4 : Nat) ≠ 3
      decide
    · cases h
      assumption

end Wave

namespace Segment

/-! ## Formats -/

/-- Two segments have the same format. -/
structure Alike (s t : Segment) : Prop where
  channels : s.channels = t.channels
  rate : s.rate = t.rate
  width : s.width = t.width

/-- A segment with room for another one beside it. -/
def widened (s t : Segment) : Segment :=
  { s with
    channels := max s.channels t.channels, rate := max s.rate t.rate, width := max s.width t.width }

/-- A segment with room for all of some others behind it. -/
def joined (s : Segment) (ts : List Segment) : Segment := ts.foldl widened s

variable {s t u : Segment}

lemma Alike.refl (s : Segment) : s.Alike s := ⟨rfl, rfl, rfl⟩

lemma Alike.trans (h : s.Alike t) (h' : t.Alike u) : s.Alike u :=
  ⟨h.channels.trans h'.channels, h.rate.trans h'.rate, h.width.trans h'.width⟩

lemma Alike.widened (h : s.Alike t) (u : Segment) : (s.widened u).Alike (t.widened u) :=
  ⟨congrArg (max · u.channels) h.channels, congrArg (max · u.rate) h.rate,
    congrArg (max · u.width) h.width⟩

lemma Alike.joined (h : s.Alike t) (us : List Segment) : (s.joined us).Alike (t.joined us) := by
  induction us generalizing s t with
  | nil => exact h
  | cons u us ih => exact ih (h.widened u)

/-- Nothing changes for others that are no larger. -/
lemma alike_joined {us : List Segment}
    (h : ∀ u ∈ us, u.channels ≤ s.channels ∧ u.rate ≤ s.rate ∧ u.width ≤ s.width) :
    (s.joined us).Alike s := by
  induction us with
  | nil => exact .refl s
  | cons u us ih =>
    obtain ⟨hchannels, hrate, hwidth⟩ := h u (by simp)
    have hwidened : (s.widened u).Alike s :=
      ⟨max_eq_left hchannels, max_eq_left hrate, max_eq_left hwidth⟩
    have hrest : (s.joined us).Alike s := ih fun w hw => h w (by simp [hw])
    exact (hwidened.joined us).trans hrest

lemma Alike.frameWidth (h : s.Alike t) : s.frameWidth = t.frameWidth := by
  rw [Segment.frameWidth, Segment.frameWidth, h.channels, h.width]

lemma Alike.bitrate (h : s.Alike t) : s.bitrate = t.bitrate := by
  rw [Segment.bitrate, Segment.bitrate, h.frameWidth, h.rate]

lemma Alike.milliseconds (h : s.Alike t) (hlength : s.data.length = t.data.length) :
    s.milliseconds = t.milliseconds := by
  have hframes : s.frames = t.frames := by rw [frames, frames, h.frameWidth, hlength]
  rw [Segment.milliseconds, Segment.milliseconds, seconds, seconds, hframes, h.rate]

lemma exists_milliseconds (h : s.frameWidth ≠ 0) : ∃ length, s.milliseconds = .ok length := by
  have hframes : s.frames = .ok (s.data.length / s.frameWidth) := if_neg h
  by_cases hrate : s.rate = 0
  · exact ⟨_, by rw [milliseconds, seconds, if_pos hrate]; rfl⟩
  · exact ⟨_, by rw [milliseconds, seconds, if_neg hrate, hframes]; rfl⟩

/-! ## Working on segments -/

lemma alike_of_slice {start stop : Float} (h : s.slice start stop = .ok t) : t.Alike s := by
  obtain ⟨extent, -, h⟩ := answer_of_bind h
  extract_lets limit limited first last data missing frame at h
  split at h
  · cases h
    exact ⟨rfl, rfl, rfl⟩
  · obtain ⟨filled, -, h⟩ := answer_of_bind h
    cases h
    exact ⟨rfl, rfl, rfl⟩

lemma length_takeGroups (n count : Nat) (b : Bytes) : (takeGroups n count b).length = count := by
  induction count generalizing b with
  | zero => rfl
  | succ count ih => simp [takeGroups, ih]

lemma alike_of_gain {db : Float} (h : s.gain db = .ok t) :
    t.Alike s ∧ t.data.length = s.data.length := by
  obtain ⟨factor, -, h⟩ := answer_of_bind h
  obtain ⟨samples, hsamples, h⟩ := answer_of_bind h
  cases h
  refine ⟨⟨rfl, rfl, rfl⟩, ?_⟩
  unfold Segment.samples at hsamples
  split at hsamples
  · cases hsamples
  rename_i hwhole
  cases hsamples
  simp only [Bool.or_eq_true, decide_eq_true_eq, not_or, not_not] at hwhole
  -- every sample gives as many bytes again, and no byte is left over
  have hdvd := Nat.div_mul_cancel (Nat.dvd_of_mod_eq_zero hwhole.2)
  simp [List.length_flatMap, List.map_const', groups, length_takeGroups, hdvd]

lemma setChannels_ok {n : Nat} (h : s.setChannels n = .ok t) :
    t.Alike { s with channels := n } := by
  unfold setChannels at h
  split at h
  · rename_i heq
    cases h
    exact ⟨heq.symm, rfl, rfl⟩
  split at h
  · split at h
    · obtain ⟨samples, -, h⟩ := answer_of_bind h
      cases h
      exact ⟨rfl, rfl, rfl⟩
    · obtain ⟨frames, -, h⟩ := answer_of_bind h
      split at h
      · cases h
      split at h
      · cases h
      cases h
      exact ⟨rfl, rfl, rfl⟩
  · split at h <;> cases h

lemma setRate_ok {rate : Nat} (h : s.setRate rate = .ok t) : t.Alike { s with rate } := by
  unfold setRate at h
  split at h
  · rename_i heq
    cases h
    exact ⟨rfl, heq.symm, rfl⟩
  split at h
  · cases h
    exact ⟨rfl, rfl, rfl⟩
  split at h
  · cases h
  split at h
  · cases h
  cases h
  exact ⟨rfl, rfl, rfl⟩

lemma setWidth_ok {width : Nat} (h : s.setWidth width = .ok t) : t.Alike { s with width } := by
  unfold setWidth at h
  split at h
  · rename_i heq
    cases h
    exact ⟨rfl, rfl, heq.symm⟩
  split at h
  · cases h
  obtain ⟨samples, -, h⟩ := answer_of_bind h
  cases h
  exact ⟨rfl, rfl, rfl⟩

/-- What is put together has room for both parts. -/
lemma alike_of_append (h : s.append t = .ok u) : u.Alike (s.widened t) := by
  obtain ⟨s₁, hchannels, h⟩ := answer_of_bind h
  obtain ⟨s₂, hrate, h⟩ := answer_of_bind h
  obtain ⟨s₃, hwidth, h⟩ := answer_of_bind h
  obtain ⟨t₁, -, h⟩ := answer_of_bind h
  obtain ⟨t₂, -, h⟩ := answer_of_bind h
  obtain ⟨t₃, -, h⟩ := answer_of_bind h
  cases h
  have h₁ := setChannels_ok hchannels
  have h₂ := setRate_ok hrate
  have h₃ := setWidth_ok hwidth
  exact ⟨h₃.channels.trans (h₂.channels.trans h₁.channels), h₃.rate.trans h₂.rate, h₃.width⟩

end Segment

end AudLang
