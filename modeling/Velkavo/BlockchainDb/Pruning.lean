import Velkavo.BlockchainDb.Tables

/-! Pruning seeds: the stripe of a node, and the number of stripes that there are. -/

namespace Velkavo.BlockchainDb

def pruningLogStripes : UInt32 := 3

def pruningSeedLogStripesShift : UInt32 := 7

def pruningSeedLogStripesMask : UInt32 := 0x7

def pruningSeedStripeShift : UInt32 := 0

def pruningSeedStripeMask : UInt32 := 0x7f

def getPruningLogStripes (pruningSeed : UInt32) : UInt32 :=
  (pruningSeed >>> pruningSeedLogStripesShift) &&& pruningSeedLogStripesMask

def getPruningStripe (pruningSeed : UInt32) : UInt32 :=
  if pruningSeed = 0 then 0 else 1 + ((pruningSeed >>> pruningSeedStripeShift) &&& pruningSeedStripeMask)

end Velkavo.BlockchainDb
