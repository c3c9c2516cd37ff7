import Velkavo.Core.Timestamps

namespace Velkavo.Core

def cryptonoteRewardBlocksWindow : ℕ := 100

def fullRewardZoneV1 : UInt64 := 20000

def fullRewardZoneV2 : UInt64 := 60000

def fullRewardZoneV5 : UInt64 := 300000

def shortTermBlockWeightSurgeFactor : UInt64 := 50

def hfVersionLongTermBlockWeight : UInt8 := 10

def hfVersion2021Scaling : UInt8 := 15

def getMinBlockWeight (version : UInt8) : UInt64 :=
  if version < 2 then fullRewardZoneV1 else if version < 5 then fullRewardZoneV2 else fullRewardZoneV5

structure BlockInfo where
  coins : UInt64
  weight : UInt64
  longTermBlockWeight : UInt64
  deriving DecidableEq

def getLastNBlocksWeights (db : List BlockInfo) (count : ℕ) : List UInt64 :=
  (db.drop (db.length - min db.length count)).map BlockInfo.weight

def getLongTermBlockWeightMedian (db : List BlockInfo) (count : ℕ) : Option UInt64 :=
  if count = 0 then none else some (median ((db.drop (db.length - count)).map BlockInfo.longTermBlockWeight))

def longTermEffectiveMedian (window : ℕ) (db : List BlockInfo) : Option UInt64 :=
  (getLongTermBlockWeightMedian db (min window db.length)).map (max fullRewardZoneV5)

def getNextLongTermBlockWeight (window : ℕ) (hfVersion : UInt8) (db : List BlockInfo) (blockWeight : UInt64) :
    Option UInt64 :=
  if hfVersion < hfVersionLongTermBlockWeight then some blockWeight
  else (longTermEffectiveMedian window db).map fun longTerm =>
    if hfVersion ≥ hfVersion2021Scaling then min (max blockWeight (longTerm * 10 / 17)) (longTerm + longTerm * 7 / 10)
    else min blockWeight (longTerm + longTerm * 2 / 5)

structure WeightLimits where
  currentBlockCumulWeightMedian : UInt64
  currentBlockCumulWeightLimit : UInt64
  longTermEffectiveMedianBlockWeight : UInt64
  deriving DecidableEq

def WeightLimits.initial : WeightLimits := ⟨0, 0, 0⟩

def effectiveMedian (hfVersion : UInt8) (longTerm shortTerm : UInt64) : UInt64 :=
  if hfVersion ≥ hfVersion2021Scaling then min (max longTerm shortTerm) (shortTermBlockWeightSurgeFactor * longTerm)
  else min (max fullRewardZoneV5 shortTerm) (shortTermBlockWeightSurgeFactor * longTerm)

def WeightLimits.withMedian (w : WeightLimits) (hfVersion : UInt8) (median : UInt64) : WeightLimits :=
  let median := if median ≤ getMinBlockWeight hfVersion then getMinBlockWeight hfVersion else median
  { w with currentBlockCumulWeightMedian := median, currentBlockCumulWeightLimit := median * 2 }

def updateNextCumulativeWeightLimit (window : ℕ) (hfVersion : UInt8) (db : List BlockInfo) (w : WeightLimits) :
    Option WeightLimits :=
  let shortTerm := median (getLastNBlocksWeights db cryptonoteRewardBlocksWindow)
  if hfVersion < hfVersionLongTermBlockWeight then some (w.withMedian hfVersion shortTerm)
  else (longTermEffectiveMedian window db).map fun longTerm =>
    WeightLimits.withMedian { w with longTermEffectiveMedianBlockWeight := longTerm } hfVersion
      (effectiveMedian hfVersion longTerm shortTerm)

end Velkavo.Core
