import LibShare.Sys.Auth

/-!
# libshare — locations

The comparison of two locations, and the tags that they are indexed by (`shsys_geo.c`). `shgeo_cmp`
reads both of its places from the first location, so that every place is found to be the same as
any other.

The numbers are floating-point ones. What reads, rounds, converts and stores them is a parameter
(`GeoLib`), and equality is that of the numbers: `shnum_prec_dim` divides an unsigned integer, and
its results are neither undefined nor negative zeros.

* `shgeoCmp_iff` — the places that are compared as they should be.
-/

namespace LibShare.Sys

open Mem

/-! ## Locations -/

/-- `SHGEO_PREC_POINT`. -/
def shgeoPrecPoint : Int := 6

/-- `shgeo_t`. -/
structure Shgeo where
  stamp : UInt64
  lat : UInt64
  lon : UInt64
  alt : UInt32
deriving DecidableEq

/-- What locations take from elsewhere, for numbers of the types `shnum_t` and `double`. -/
structure GeoLib (Num Double : Type) where
  /-- `shnum_get` -/
  numGet : UInt64 → Num
  /-- `shnum_set` -/
  numSet : Num → UInt64
  /-- `shnum_prec_dim` -/
  precDim : Num → Int → Num
  toDouble : Num → Double
  ofDouble : Double → Num
  /-- a number in memory -/
  doubleBytes : Double → Vector UInt8 8
  /-- `shtime` -/
  stamp : UInt64

variable {Num Double : Type}

/-- `shgeo_set`. -/
def shgeoSet (lib : GeoLib Num Double) (lat lon : Num) (alt : Int) : Shgeo :=
  { stamp := lib.stamp
    lat := lib.numSet lat
    lon := lib.numSet lon
    alt := UInt32.ofInt (min alt 1584000000) }

/-- `shgeo_loc`, without the altitude. -/
def shgeoLoc (lib : GeoLib Num Double) (geo : Shgeo) : Num × Num :=
  (lib.numGet geo.lat, lib.numGet geo.lon)

/-- What `shgeo_tag` makes a key of. -/
def shgeoTagBytes (lib : GeoLib Num Double) (geo : Shgeo) (prec : Int) : Bytes :=
  let (nlat, nlon) := shgeoLoc lib geo
  let lat := lib.toDouble (lib.precDim nlat prec)
  let lon := lib.toDouble (lib.precDim nlon prec)
  (lib.doubleBytes lat).toList ++ (lib.doubleBytes lon).toList

/-- `shgeo_tag`. -/
def shgeoTag (pam : PamLib) (lib : GeoLib Num Double) (geo : Shgeo) (prec : Int) : ShKey :=
  shkeyBin pam (shgeoTagBytes lib geo prec)

/-- `shgeo_cmp`. -/
def shgeoCmp [DecidableEq Num] (lib : GeoLib Num Double) (geo _cmpGeo : Shgeo)
    (prec : Int) : Bool :=
  let (lat, lon) := shgeoLoc lib geo
  let lat := lib.precDim lat prec
  let lon := lib.precDim lon prec
  -- the location that is compared with is not read
  let (cLat, cLon) := shgeoLoc lib geo
  let cLat := lib.precDim cLat prec
  let cLon := lib.precDim cLon prec
  lat = cLat && lon = cLon

/-- The location that `shgeo_cmpf` makes of two numbers. -/
def shgeoOf (lib : GeoLib Num Double) (lat lon : Double) : Shgeo :=
  shgeoSet lib (lib.ofDouble lat) (lib.ofDouble lon) 0

/-- `shgeo_cmpf`. -/
def shgeoCmpf [DecidableEq Num] (lib : GeoLib Num Double) (geo : Shgeo) (lat lon : Double) : Bool :=
  shgeoCmp lib geo (shgeoOf lib lat lon) shgeoPrecPoint

/-! ## Places -/

/-- The latitude and the longitude of a location, reduced to a precision. -/
def Shgeo.reduced (lib : GeoLib Num Double) (geo : Shgeo) (prec : Int) : Num × Num :=
  (lib.precDim (lib.numGet geo.lat) prec, lib.precDim (lib.numGet geo.lon) prec)

/-- A comparison at a precision is that of the reduced places, and locations that it finds to be
the same have one tag. -/
structure ComparesPlaces [DecidableEq Num] (pam : PamLib) (lib : GeoLib Num Double) (a b : Shgeo)
    (prec : Int) :
    Prop where
  same : shgeoCmp lib a b prec = true ↔ a.reduced lib prec = b.reduced lib prec
  bytes : shgeoCmp lib a b prec = true → shgeoTagBytes lib a prec = shgeoTagBytes lib b prec
  tag : shgeoCmp lib a b prec = true → shgeoTag pam lib a prec = shgeoTag pam lib b prec

variable {lib : GeoLib Num Double} {a b : Shgeo} {prec : Int}

/-- The tag of a location is made of its reduced place. -/
theorem tagBytes_of_reduced (h : a.reduced lib prec = b.reduced lib prec) :
    shgeoTagBytes lib a prec = shgeoTagBytes lib b prec := by
  obtain ⟨hlat, hlon⟩ := Prod.mk.inj h
  unfold shgeoTagBytes shgeoLoc
  dsimp only
  rw [hlat, hlon]

variable [DecidableEq Num]

theorem shgeoCmp_true (lib : GeoLib Num Double) (a b : Shgeo) (prec : Int) :
    shgeoCmp lib a b prec = true := by
  unfold shgeoCmp
  simp

/-- Two locations are compared as they should be where their places are the same, and so is a
location with two numbers. -/
theorem shgeoCmp_iff (pam : PamLib) (lib : GeoLib Num Double) (a b : Shgeo) (prec : Int)
    (lat lon : Double) :
    (ComparesPlaces pam lib a b prec ↔ a.reduced lib prec = b.reduced lib prec) ∧
      ((shgeoCmpf lib a lat lon = true →
          (shgeoOf lib lat lon).reduced lib shgeoPrecPoint = a.reduced lib shgeoPrecPoint) ↔
        (shgeoOf lib lat lon).reduced lib shgeoPrecPoint = a.reduced lib shgeoPrecPoint) := by
  have htrue := shgeoCmp_true lib a b prec
  refine ⟨⟨fun h => h.same.mp htrue, fun h => ?_⟩, ⟨fun h => ?_, fun h _ => h⟩⟩
  · have hbytes := tagBytes_of_reduced h
    refine ⟨iff_of_true htrue h, fun _ => hbytes, fun _ => ?_⟩
    rw [shgeoTag, shgeoTag, hbytes]
  · exact h (shgeoCmp_true lib a (shgeoOf lib lat lon) shgeoPrecPoint)

/-- Numbers without a fraction, for runs on fixed inputs. -/
def GeoLib.whole : GeoLib Nat Nat :=
  { numGet := fun v => (htonll v).toNat
    numSet := fun n => htonll (UInt64.ofNat n)
    precDim := fun n _ => n
    toDouble := id
    ofDouble := id
    doubleBytes := fun n => Vector.ofFn fun i => UInt8.ofNat (n / 256 ^ i.val)
    stamp := 1 }

/-- The places 46, 113 and 47, 114 are found to be the same. -/
theorem shgeoCmp_other_place :
    shgeoCmp .whole (shgeoSet .whole 46 113 0) (shgeoSet .whole 47 114 0) 3 = true ∧
      (shgeoSet .whole 46 113 0).reduced .whole 3 ≠ (shgeoSet .whole 47 114 0).reduced .whole 3 ∧
      shgeoTagBytes .whole (shgeoSet .whole 46 113 0) 3 ≠
        shgeoTagBytes .whole (shgeoSet .whole 47 114 0) 3 ∧
      shgeoCmpf .whole (shgeoSet .whole 46 113 0) 47 114 = true := by
  decide

end LibShare.Sys
