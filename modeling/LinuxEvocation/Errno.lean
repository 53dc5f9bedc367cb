import Mathlib.Init

/-!
# Error numbers

The values of `include/linux/errno.h` that the modelled calls return, negated, to
their caller.
-/

namespace LinuxEvocation.Errno

def eperm : Int := 1
def enoent : Int := 2
def esrch : Int := 3
def eintr : Int := 4
def eio : Int := 5
def e2big : Int := 7
def ebadf : Int := 9
def echild : Int := 10
def eagain : Int := 11
def enomem : Int := 12
def eacces : Int := 13
def ebusy : Int := 16
def eexist : Int := 17
def enodev : Int := 19
def enotdir : Int := 20
def eisdir : Int := 21
def einval : Int := 22
def efbig : Int := 27
def enospc : Int := 28
def emlink : Int := 31
def epipe : Int := 32
def erange : Int := 34
def enolck : Int := 37
def enotempty : Int := 39
def enomsg : Int := 42
def eidrm : Int := 43

/-! Never seen by user space: the call is restarted after the signal. -/

def erestartsys : Int := 512
def erestartnointr : Int := 513
def erestartnohand : Int := 514

end LinuxEvocation.Errno
