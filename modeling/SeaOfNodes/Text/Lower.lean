/-
  SeaOfNodes.Text.Lower

  Small letters.  A capital letter has one small letter of its own; every other
  character is left as it is.  In some alphabets the letters of a run lie at one
  distance from their small letters, in others each small letter follows its
  capital directly.
-/
import SeaOfNodes.Text.Ranges

namespace SeaOfNodes.Text

/-- A run of capital letters and the small letter of the first. -/
structure Shift where
  range : Range
  target : Nat
deriving DecidableEq

/-- Read a run: its two ends and the target of the first. -/
def Shift.ofText (entry : List Char) : Shift :=
  match entry.splitOn '-' with
  | [low, high, target] => ⟨⟨readHex low, readHex high⟩, readHex target⟩
  | _ => ⟨⟨1, 0⟩, 0⟩

/-- Runs at one distance from their small letters. -/
def shiftTable : String := "
  41-5a-61 c0-d6-e0 d8-de-f8 130-130-69 178-178-ff 181-181-253 186-186-254 189-18a-256 18e-18e-1dd
  18f-18f-259 190-190-25b 193-193-260 194-194-263 196-196-269 197-197-268 19c-19c-26f 19d-19d-272
  19f-19f-275 1a6-1a6-280 1a9-1a9-283 1ae-1ae-288 1b1-1b2-28a 1b7-1b7-292 1c4-1c4-1c6 1c7-1c7-1c9
  1ca-1ca-1cc 1f1-1f1-1f3 1f6-1f6-195 1f7-1f7-1bf 220-220-19e 23a-23a-2c65 23d-23d-19a
  23e-23e-2c66 243-243-180 244-244-289 245-245-28c 37f-37f-3f3 386-386-3ac 388-38a-3ad 38c-38c-3cc
  38e-38f-3cd 391-3a1-3b1 3a3-3ab-3c3 3cf-3cf-3d7 3f4-3f4-3b8 3f9-3f9-3f2 3fd-3ff-37b 400-40f-450
  410-42f-430 4c0-4c0-4cf 531-556-561 10a0-10c5-2d00 10c7-10c7-2d27 10cd-10cd-2d2d 13a0-13ef-ab70
  13f0-13f5-13f8 1c90-1cba-10d0 1cbd-1cbf-10fd 1e9e-1e9e-df 1f08-1f0f-1f00 1f18-1f1d-1f10
  1f28-1f2f-1f20 1f38-1f3f-1f30 1f48-1f4d-1f40 1f59-1f59-1f51 1f5b-1f5b-1f53 1f5d-1f5d-1f55
  1f5f-1f5f-1f57 1f68-1f6f-1f60 1f88-1f8f-1f80 1f98-1f9f-1f90 1fa8-1faf-1fa0 1fb8-1fb9-1fb0
  1fba-1fbb-1f70 1fbc-1fbc-1fb3 1fc8-1fcb-1f72 1fcc-1fcc-1fc3 1fd8-1fd9-1fd0 1fda-1fdb-1f76
  1fe8-1fe9-1fe0 1fea-1feb-1f7a 1fec-1fec-1fe5 1ff8-1ff9-1f78 1ffa-1ffb-1f7c 1ffc-1ffc-1ff3
  2126-2126-3c9 212a-212a-6b 212b-212b-e5 2132-2132-214e 2160-216f-2170 24b6-24cf-24d0
  2c00-2c2f-2c30 2c62-2c62-26b 2c63-2c63-1d7d 2c64-2c64-27d 2c6d-2c6d-251 2c6e-2c6e-271
  2c6f-2c6f-250 2c70-2c70-252 2c7e-2c7f-23f a77d-a77d-1d79 a78d-a78d-265 a7aa-a7aa-266
  a7ab-a7ab-25c a7ac-a7ac-261 a7ad-a7ad-26c a7ae-a7ae-26a a7b0-a7b0-29e a7b1-a7b1-287
  a7b2-a7b2-29d a7b3-a7b3-ab53 a7c4-a7c4-a794 a7c5-a7c5-282 a7c6-a7c6-1d8e ff21-ff3a-ff41
  10400-10427-10428 104b0-104d3-104d8 10570-1057a-10597 1057c-1058a-105a3 1058c-10592-105b3
  10594-10595-105bb 10c80-10cb2-10cc0 118a0-118bf-118c0 16e40-16e5f-16e60 1e900-1e921-1e922"

/-- Runs in which every second character is a capital letter and the one behind it
    its small letter. -/
def alternatingTable : String := "
  100-12e 132-136 139-147 14a-176 179-17d 182-184 187 18b 191 198 1a0-1a4 1a7 1ac 1af 1b3-1b5 1b8
  1bc 1c5 1c8 1cb-1db 1de-1ee 1f2-1f4 1f8-21e 222-232 23b 241 246-24e 370-372 376 3d8-3ee 3f7 3fa
  460-480 48a-4be 4c1-4cd 4d0-52e 1e00-1e94 1ea0-1efe 2183 2c60 2c67-2c6b 2c72 2c75 2c80-2ce2
  2ceb-2ced 2cf2 a640-a66c a680-a69a a722-a72e a732-a76e a779-a77b a77e-a786 a78b a790-a792
  a796-a7a8 a7b4-a7c2 a7c7-a7c9 a7d0 a7d6-a7d8 a7f5"

/-- The runs at one distance. -/
def shifts : List Shift := (words shiftTable.toList).map Shift.ofText

/-- The runs with small letters in between. -/
def alternating : Ranges := .ofTable alternatingTable

/-- The small letter of a character. -/
def lowerChar (c : Char) : Char :=
  let n := c.toNat
  match shifts.find? fun s => s.range.low ≤ n && n ≤ s.range.high with
  | some s => Char.ofNat (n - s.range.low + s.target)
  | none =>
    match alternating.find? fun r => r.low ≤ n && n ≤ r.high with
    | some r => if (n - r.low) % 2 = 0 then Char.ofNat (n + 1) else c
    | none => c

/-- A text in small letters. -/
def lower (s : String) : String := String.ofList (s.toList.map lowerChar)

end SeaOfNodes.Text
