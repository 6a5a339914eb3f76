/-!
# The errors of the file system

The results of calls that fail are negative.
-/

namespace Citrine.Ffs

/-- `EFFS_OK` -/
def effsOk : Int := 0
/-- `EFFS_CORRUPTED` -/
def effsCorrupted : Int := -2
/-- `EFFS_NOFORMAT` -/
def effsNoformat : Int := -4
/-- `EFFS_BADFORMAT` -/
def effsBadformat : Int := -5
/-- `EFFS_NOSPACE` -/
def effsNospace : Int := -10
/-- `EFFS_NOTFOUND` -/
def effsNotfound : Int := -13
/-- `EFFS_EXISTS` -/
def effsExists : Int := -14
/-- `EFFS_INVALID` -/
def effsInvalid : Int := -17
/-- `EFFS_NOTAFILE` -/
def effsNotafile : Int := -22
/-- `EFFS_NUMFD` -/
def effsNumfd : Int := -24
/-- `EFFS_LOCKED` -/
def effsLocked : Int := -27
/-- `EFFS_MEMORY` -/
def effsMemory : Int := -31
/-- `EFFS_NOBLOCKS` -/
def effsNoblocks : Int := -41
/-- `EFFS_DBR` -/
def effsDbr : Int := -42
/-- `EFFS_RECLAIMLOOP` -/
def effsReclaimloop : Int := -43

end Citrine.Ffs
