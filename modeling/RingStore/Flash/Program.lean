import RingStore.Bytes

/-!
# Programs over a flash chip

A chip is driven by three kinds of accesses, and each may fail.  `FlashM α` is a program that asks
for accesses one after the other and ends with a result in `α`.  It is a tree: a node holds the
access it asks for and, for every answer, the program that goes on.  The program fixes neither what
the chip holds nor which accesses fail; a device that runs it decides that, and a statement about
the tree covers all devices.

## Main statements

* `FlashM` is a lawful monad.
-/

namespace RingStore

/-- An access to the chip.  Addresses are words of 32 bits. -/
inductive Access where
  /-- Asks for the bytes from an address on. -/
  | read (start : UInt32) (length : Nat)
  /-- Programs bytes from an address on; programming only clears bits. -/
  | write (start : UInt32) (bytes : Bytes)
  /-- Sets every byte from the first address up to the second one to `0xFF`. -/
  | erase (start stop : UInt32)
  deriving DecidableEq, Repr

/-- A read is answered with its bytes or a failure, the other accesses with success or failure. -/
abbrev Access.Answer : Access → Type
  | .read _ _ => Option Bytes
  | .write _ _ => Bool
  | .erase _ _ => Bool

/-- A program that asks for flash accesses. -/
inductive FlashM (α : Type) where
  /-- The program has ended. -/
  | done (result : α)
  /-- The program asks for an access and goes on with the answer. -/
  | request (access : Access) (next : access.Answer → FlashM α)

namespace FlashM

variable {α β : Type}

/-- Runs a second program on the result of a first one. -/
def bind : FlashM α → (α → FlashM β) → FlashM β
  | done a, f => f a
  | request access next, f => request access fun answer => (next answer).bind f

instance : Monad FlashM where
  pure := done
  bind := bind

@[simp] theorem done_bind (a : α) (f : α → FlashM β) : (done a >>= f) = f a := rfl

@[simp] theorem request_bind (access : Access) (next : access.Answer → FlashM α)
    (f : α → FlashM β) :
    (request access next >>= f) = request access fun answer => next answer >>= f := rfl

theorem bind_done (x : FlashM α) : x.bind done = x := by
  induction x with
  | done a => rfl
  | request access next ih => exact congrArg (request access) (funext ih)

theorem bind_bind {γ : Type} (x : FlashM α) (f : α → FlashM β) (g : β → FlashM γ) :
    (x.bind f).bind g = x.bind fun a => (f a).bind g := by
  induction x with
  | done a => rfl
  | request access next ih => exact congrArg (request access) (funext ih)

instance : LawfulMonad FlashM :=
  LawfulMonad.mk' FlashM (fun x => bind_done x) (fun _ _ => rfl) (fun x f g => bind_bind x f g)

/-- The program that asks for one access. -/
def ask (access : Access) : FlashM access.Answer := request access done

end FlashM

end RingStore
