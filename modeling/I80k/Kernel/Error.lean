import Mathlib

/-!
# Error codes

The values of `error.h`, as the `int` of 16 bits that functions return.
-/

namespace I80k.Kernel

/-- `ERR_NO_ENTRY`. -/
def errNoEntry : Int16 := -2

/-- `ERR_IO`. -/
def errIo : Int16 := -5

/-- `ERR_NO_MEM`. -/
def errNoMem : Int16 := -12

/-- `ERR_NO_DEV`. -/
def errNoDev : Int16 := -19

/-- `ERR_NOT_DIR`. -/
def errNotDir : Int16 := -20

/-- `ERR_INVAL`. -/
def errInval : Int16 := -22

/-- `ERR_NOT_SUPP`. -/
def errNotSupp : Int16 := -134

end I80k.Kernel
