/-
  BubbleStorm.Util.Serial.Forms — the serial forms of what is sent most
  (`src/util/serial/basic-types.sml`, `src/util/id/id.sml`, `src/system/udp/ipv4.sml`).
-/

import BubbleStorm.Util.Serial.Parse

namespace BubbleStorm.Util.Serial.Forms

def word8 : Shape (BitVec 8) := .basic (.wordl 0 (by decide))
def word16b : Shape (BitVec 16) := .basic (.wordb 1 (by decide))
def word32l : Shape (BitVec 32) := .basic (.wordl 2 (by decide))
def word32b : Shape (BitVec 32) := .basic (.wordb 2 (by decide))
def int32l : Shape (BitVec 32) := .basic (.wordl 2 (by decide))
def word64l : Shape (BitVec 64) := .basic (.wordl 3 (by decide))
def int64l : Shape (BitVec 64) := .basic (.wordl 3 (by decide))
def real64l : Shape (BitVec 64) := .basic (.wordl 3 (by decide))
def bool : Shape Bool := .basic .bool

abbrev Id := List (BitVec 8)

/-- `ID.t`. -/
def id : Shape Id := .vector word8 20

theorem id_length : id.serial.length = 20 := rfl

abbrev Address := List (BitVec 8) × BitVec 16

/-- `aggregate tuple2`. -/
def pair {α β : Type} (a : Shape α) (b : Shape β) : Shape (α × β) :=
  .aggregate (fun (x, y, _) => (x, y)) (fun (x, y) => (x, y, ())) (.cons a (.cons b .nil))

/-- Four bytes, and the port. -/
def address : Shape Address := pair (.vector word8 4) word16b

end BubbleStorm.Util.Serial.Forms
