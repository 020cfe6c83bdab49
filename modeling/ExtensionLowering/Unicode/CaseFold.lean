import ExtensionLowering.Unicode.Runs
/-!
# Case folding

Two characters that differ only in case are in one class. Most classes are pairs a fixed distance
apart, and such pairs come in rows.
-/
namespace ExtensionLowering.Unicode

/-- Rows of pairs: the first and last lower member, the step between them, and the distance to the
upper member. -/
def longRows : List (List Nat) := table [
  "41.4a.1.20 4c.5a.2.20 4d.51.2.20 55.59.2.20 c0.de.2.20 c1.c3.2.20 c7.d5.2.20 d9.dd.2.20",
  "100.12e.2.1 132.136.2.1 139.147.2.1 14a.176.2.1 179.17d.2.1 182.184.2.1 189.18a.1.cd",
  "1a0.1a4.2.1 1b1.1b2.1.d9 1b3.1b5.2.1 1cd.1db.2.1 1de.1ee.2.1 1f8.21e.2.1 222.232.2.1",
  "23f.240.1.2a3f 246.24e.2.1 370.372.2.1 37b.37d.1.82 388.38a.1.25 38e.38f.1.3f 391.393.2.20",
  "394.396.2.20 39b.39f.2.20 3a4.3a5.1.20 3a7.3a8.1.20 3aa.3ab.1.20 3d8.3ee.2.1 400.40f.1.50",
  "410.411.1.20 413.41f.2.20 416.41c.2.20 423.429.1.20 42b.42f.1.20 464.480.2.1 48a.4be.2.1",
  "4c1.4cd.2.1 4d0.52e.2.1 531.556.1.30 10a0.10c5.1.1c60 10d0.10fa.1.bc0 10fd.10ff.1.bc0",
  "13a0.13ef.1.97d0 13f0.13f5.1.8 1e00.1e5e.2.1 1e62.1e94.2.1 1ea0.1efe.2.1 1f00.1f07.1.8",
  "1f10.1f15.1.8 1f20.1f27.1.8 1f30.1f37.1.8 1f40.1f45.1.8 1f51.1f57.2.8 1f60.1f67.1.8",
  "1f70.1f71.1.4a 1f72.1f75.1.56 1f76.1f77.1.64 1f78.1f79.1.80 1f7a.1f7b.1.70 1f7c.1f7d.1.7e",
  "1f80.1f87.1.8 1f90.1f97.1.8 1fa0.1fa7.1.8 1fb0.1fb1.1.8 1fd0.1fd1.1.8 1fe0.1fe1.1.8",
  "2160.216f.1.10 24b6.24cf.1.1a 2c00.2c2f.1.30 2c67.2c6b.2.1 2c80.2ce2.2.1 2ceb.2ced.2.1",
  "a640.a648.2.1 a64c.a66c.2.1 a680.a69a.2.1 a722.a72e.2.1 a732.a76e.2.1 a779.a77b.2.1",
  "a77e.a786.2.1 a790.a792.2.1 a796.a7a8.2.1 a7b4.a7c2.2.1 a7c7.a7c9.2.1 a7cc.a7da.2.1",
  "ff21.ff3a.1.20 10400.10427.1.28 104b0.104d3.1.28 10570.10594.2.27 10571.10579.2.27",
  "1057d.10589.2.27 1058d.10591.2.27 10c80.10cb2.1.40 10d50.10d65.1.20 118a0.118bf.1.20",
  "16e40.16e5f.1.20 16ea0.16eb8.1.1b 1e900.1e921.1.22"]

/-- Pairs in no row: the lower member and the distance to the upper one. -/
def foldPairs : List (List Nat) := table [
  "df.1dbf ff.79 180.c3 181.d2 186.ce 187.1 18b.1 18e.4f 18f.ca 190.cb 191.1 193.cd 194.cf 195.61",
  "196.d3 197.d1 198.1 19a.a3 19b.a641 19c.d3 19d.d5 19e.82 19f.d6 1a6.da 1a7.1 1a9.da 1ac.1",
  "1ae.da 1af.1 1b7.db 1b8.1 1bc.1 1bf.38 1f4.1 23a.2a2b 23b.1 23e.2a28 241.1 244.45 245.47",
  "250.2a1f 251.2a1c 252.2a1e 25c.a54f 261.a54b 264.a567 265.a528 266.a544 26a.a544 26b.29f7",
  "26c.a541 271.29fd 27d.29e7 282.a543 287.a52a 29d.a515 29e.a512 376.1 37f.74 386.26 38c.40",
  "390.1c43 397.20 39e.20 3b0.1c33 3cf.8 3f2.7 3f7.1 3fa.1 420.20 460.1 4c0.f 10c7.1c60 10cd.1c60",
  "1c89.1 1d79.8a04 1d7d.ee6 1d8e.8a38 1fb3.9 1fc3.9 1fe5.7 1ff3.9 2132.1c 2183.1 2c60.1 2c72.1",
  "2c75.1 2cf2.1 a78b.1 a794.30 a7b3.3a0 a7f5.1 fb05.1 10595.27"]

def foldRows : List (Nat × Nat × Nat × Nat) :=
  (longRows ++ foldPairs).filterMap fun
    | [first, last, step, distance] => some (first, last, step, distance)
    | [lower, distance] => some (lower, lower, 1, distance)
    | _ => none

def foldGroups : List (List Nat) := table [
  "4b.6b.212a 53.73.17f b5.39c.3bc c5.e5.212b 1c4.1c5.1c6 1c7.1c8.1c9 1ca.1cb.1cc 1f1.1f2.1f3",
  "345.399.3b9.1fbe 392.3b2.3d0 395.3b5.3f5 398.3b8.3d1.3f4 39a.3ba.3f0 3a0.3c0.3d6 3a1.3c1.3f1",
  "3a3.3c2.3c3 3a6.3c6.3d5 3a9.3c9.2126 412.432.1c80 414.434.1c81 41e.43e.1c82 421.441.1c83",
  "422.442.1c84.1c85 42a.44a.1c86 462.463.1c87 1c88.a64a.a64b 1e60.1e61.1e9b"]

def inRow (first last step n : Nat) : Bool :=
  first ≤ n && n ≤ last && (n - first) % step == 0

def foldClass (n : Nat) : List Nat :=
  match foldGroups.find? (·.contains n) with
  | some group => group
  | none =>
    n :: foldRows.flatMap fun (first, last, step, distance) =>
      (if inRow first last step n then [n + distance] else []) ++
        if distance ≤ n && inRow first last step (n - distance) then [n - distance] else []

def foldable : List Nat :=
  foldGroups.flatMap id ++ foldRows.flatMap fun (first, last, step, distance) =>
    (List.range ((last - first) / step + 1)).flatMap fun i =>
      [first + i * step, first + i * step + distance]

end ExtensionLowering.Unicode
