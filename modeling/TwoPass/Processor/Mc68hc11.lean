import TwoPass.Processor.Table

/-!
# The instruction set of the 68HC11

The table that is used where none is given.
-/

namespace TwoPass.Table

/-- The mnemonics of the 68HC11 that take at most one operand. -/
def mc68hc11Standard : List (Text × Modes) :=
  [
    ("aba".toList, [(.inherent, .short 0x1B)]),
    ("abx".toList, [(.inherent, .short 0x3A)]),
    ("aby".toList, [(.inherent, .paged 0x18 0x3A)]),
    ("adca".toList, [(.immediate, .short 0x89), (.direct, .short 0x99), (.indexedX, .short 0xA9),
      (.indexedY, .paged 0x18 0xA9), (.extended, .short 0xB9)]),
    ("adcb".toList, [(.immediate, .short 0xC9), (.direct, .short 0xD9), (.indexedX, .short 0xE9),
      (.indexedY, .paged 0x18 0xE9), (.extended, .short 0xF9)]),
    ("adda".toList, [(.immediate, .short 0x8B), (.direct, .short 0x9B), (.indexedX, .short 0xAB),
      (.indexedY, .paged 0x18 0xAB), (.extended, .short 0xBB)]),
    ("addb".toList, [(.immediate, .short 0xCB), (.direct, .short 0xDB), (.indexedX, .short 0xEB),
      (.indexedY, .paged 0x18 0xEB), (.extended, .short 0xFB)]),
    ("addd".toList, [(.immediate, .short 0xC3), (.direct, .short 0xD3), (.indexedX, .short 0xE3),
      (.indexedY, .paged 0x18 0xE3), (.extended, .short 0xF3)]),
    ("anda".toList, [(.immediate, .short 0x84), (.direct, .short 0x94), (.indexedX, .short 0xA4),
      (.indexedY, .paged 0x18 0xA4), (.extended, .short 0xB4)]),
    ("andb".toList, [(.immediate, .short 0xC4), (.direct, .short 0xD4), (.indexedX, .short 0xE4),
      (.indexedY, .paged 0x18 0xE4), (.extended, .short 0xF4)]),
    ("asl".toList, [(.indexedX, .short 0x68), (.indexedY, .paged 0x18 0x68),
      (.extended, .short 0x78)]),
    ("asla".toList, [(.inherent, .short 0x48)]),
    ("aslb".toList, [(.inherent, .short 0x58)]),
    ("asld".toList, [(.inherent, .short 0x05)]),
    ("asr".toList, [(.indexedX, .short 0x67), (.indexedY, .paged 0x18 0x67),
      (.extended, .short 0x77)]),
    ("asra".toList, [(.inherent, .short 0x47)]),
    ("asrb".toList, [(.inherent, .short 0x57)]),
    ("bcc".toList, [(.relative, .short 0x24)]),
    ("bcs".toList, [(.relative, .short 0x25)]),
    ("beq".toList, [(.relative, .short 0x27)]),
    ("bge".toList, [(.relative, .short 0x2C)]),
    ("bgt".toList, [(.relative, .short 0x2E)]),
    ("bhi".toList, [(.relative, .short 0x22)]),
    ("bhs".toList, [(.relative, .short 0x24)]),
    ("bita".toList, [(.immediate, .short 0x85), (.direct, .short 0x95), (.indexedX, .short 0xA5),
      (.indexedY, .paged 0x18 0xA5), (.extended, .short 0xB5)]),
    ("bitb".toList, [(.immediate, .short 0xC5), (.direct, .short 0xD5), (.indexedX, .short 0xE5),
      (.indexedY, .paged 0x18 0xE5), (.extended, .short 0xF5)]),
    ("ble".toList, [(.relative, .short 0x2F)]),
    ("blo".toList, [(.relative, .short 0x25)]),
    ("bls".toList, [(.relative, .short 0x23)]),
    ("blt".toList, [(.relative, .short 0x2D)]),
    ("bmi".toList, [(.relative, .short 0x2B)]),
    ("bne".toList, [(.relative, .short 0x26)]),
    ("bpl".toList, [(.relative, .short 0x2A)]),
    ("bra".toList, [(.relative, .short 0x20)]),
    ("brn".toList, [(.relative, .short 0x21)]),
    ("bsr".toList, [(.relative, .short 0x8D)]),
    ("bvc".toList, [(.relative, .short 0x28)]),
    ("bvs".toList, [(.relative, .short 0x29)]),
    ("cba".toList, [(.inherent, .short 0x11)]),
    ("clc".toList, [(.inherent, .short 0x0C)]),
    ("cli".toList, [(.inherent, .short 0x0E)]),
    ("clr".toList, [(.indexedX, .short 0x6F), (.indexedY, .paged 0x18 0x6F),
      (.extended, .short 0x7F)]),
    ("clra".toList, [(.inherent, .short 0x4F)]),
    ("clrb".toList, [(.inherent, .short 0x5F)]),
    ("clv".toList, [(.inherent, .short 0x0A)]),
    ("cmpa".toList, [(.immediate, .short 0x81), (.direct, .short 0x91), (.indexedX, .short 0xA1),
      (.indexedY, .paged 0x18 0xA1), (.extended, .short 0xB1)]),
    ("cmpb".toList, [(.immediate, .short 0xC1), (.direct, .short 0xD1), (.indexedX, .short 0xE1),
      (.indexedY, .paged 0x18 0xE1), (.extended, .short 0xF1)]),
    ("com".toList, [(.indexedX, .short 0x63), (.indexedY, .paged 0x18 0x63),
      (.extended, .short 0x73)]),
    ("coma".toList, [(.inherent, .short 0x43)]),
    ("comb".toList, [(.inherent, .short 0x53)]),
    ("cpd".toList, [(.immediate, .paged 0x1A 0x83), (.direct, .paged 0x1A 0x93),
      (.indexedX, .paged 0x1A 0xA3), (.indexedY, .paged 0xCD 0xA3),
      (.extended, .paged 0x1A 0xB3)]),
    ("cpx".toList, [(.immediate, .short 0x8C), (.direct, .short 0x9C), (.indexedX, .short 0xAC),
      (.indexedY, .paged 0xCD 0xAC), (.extended, .short 0xBC)]),
    ("cpy".toList, [(.immediate, .paged 0x18 0x8C), (.direct, .paged 0x18 0x9C),
      (.indexedX, .paged 0x1A 0xAC), (.indexedY, .paged 0x18 0xAC),
      (.extended, .paged 0x18 0xBC)]),
    ("daa".toList, [(.inherent, .short 0x19)]),
    ("dec".toList, [(.indexedX, .short 0x6A), (.indexedY, .paged 0x18 0x6A),
      (.extended, .short 0x7A)]),
    ("deca".toList, [(.inherent, .short 0x4A)]),
    ("decb".toList, [(.inherent, .short 0x5A)]),
    ("des".toList, [(.inherent, .short 0x34)]),
    ("dex".toList, [(.inherent, .short 0x09)]),
    ("dey".toList, [(.inherent, .paged 0x18 0x09)]),
    ("eora".toList, [(.immediate, .short 0x88), (.direct, .short 0x98), (.indexedX, .short 0xA8),
      (.indexedY, .paged 0x18 0xA8), (.extended, .short 0xB8)]),
    ("eorb".toList, [(.immediate, .short 0xC8), (.direct, .short 0xD8), (.indexedX, .short 0xE8),
      (.indexedY, .paged 0x18 0xE8), (.extended, .short 0xF8)]),
    ("fdiv".toList, [(.inherent, .short 0x03)]),
    ("idiv".toList, [(.inherent, .short 0x02)]),
    ("inc".toList, [(.indexedX, .short 0x6C), (.indexedY, .paged 0x18 0x6C),
      (.extended, .short 0x7C)]),
    ("inca".toList, [(.inherent, .short 0x4C)]),
    ("incb".toList, [(.inherent, .short 0x5C)]),
    ("ins".toList, [(.inherent, .short 0x31)]),
    ("inx".toList, [(.inherent, .short 0x08)]),
    ("iny".toList, [(.inherent, .paged 0x18 0x08)]),
    ("jmp".toList, [(.indexedX, .short 0x6E), (.indexedY, .paged 0x18 0x6E),
      (.extended, .short 0x7E)]),
    ("jsr".toList, [(.direct, .short 0x9D), (.indexedX, .short 0xAD),
      (.indexedY, .paged 0x18 0xAD), (.extended, .short 0xBD)]),
    ("ldaa".toList, [(.immediate, .short 0x86), (.direct, .short 0x96), (.indexedX, .short 0xA6),
      (.indexedY, .paged 0x18 0xA6), (.extended, .short 0xB6)]),
    ("ldab".toList, [(.immediate, .short 0xC6), (.direct, .short 0xD6), (.indexedX, .short 0xE6),
      (.indexedY, .paged 0x18 0xE6), (.extended, .short 0xF6)]),
    ("ldd".toList, [(.immediate, .short 0xCC), (.direct, .short 0xDC), (.indexedX, .short 0xEC),
      (.indexedY, .paged 0x18 0xEC), (.extended, .short 0xFC)]),
    ("lds".toList, [(.immediate, .short 0x8E), (.direct, .short 0x9E), (.indexedX, .short 0xAE),
      (.indexedY, .paged 0x18 0xAE), (.extended, .short 0xBE)]),
    ("ldx".toList, [(.immediate, .short 0xCE), (.direct, .short 0xDE), (.indexedX, .short 0xEE),
      (.indexedY, .paged 0xCD 0xEE), (.extended, .short 0xFE)]),
    ("ldy".toList, [(.immediate, .paged 0x18 0xCE), (.direct, .paged 0x18 0xDE),
      (.indexedX, .paged 0x1A 0xEE), (.indexedY, .paged 0x18 0xEE),
      (.extended, .paged 0x18 0xFE)]),
    ("lsl".toList, [(.indexedX, .short 0x68), (.indexedY, .paged 0x18 0x68),
      (.extended, .short 0x78)]),
    ("lsla".toList, [(.inherent, .short 0x48)]),
    ("lslb".toList, [(.inherent, .short 0x58)]),
    ("lsld".toList, [(.inherent, .short 0x05)]),
    ("lsr".toList, [(.indexedX, .short 0x64), (.indexedY, .paged 0x18 0x64),
      (.extended, .short 0x74)]),
    ("lsra".toList, [(.inherent, .short 0x44)]),
    ("lsrb".toList, [(.inherent, .short 0x54)]),
    ("lsrd".toList, [(.inherent, .short 0x04)]),
    ("mul".toList, [(.inherent, .short 0x3D)]),
    ("neg".toList, [(.indexedX, .short 0x60), (.indexedY, .paged 0x18 0x60),
      (.extended, .short 0x70)]),
    ("nega".toList, [(.inherent, .short 0x40)]),
    ("negb".toList, [(.inherent, .short 0x50)]),
    ("nop".toList, [(.inherent, .short 0x01)]),
    ("oraa".toList, [(.immediate, .short 0x8A), (.direct, .short 0x9A), (.indexedX, .short 0xAA),
      (.indexedY, .paged 0x18 0xAA), (.extended, .short 0xBA)]),
    ("orab".toList, [(.immediate, .short 0xCA), (.direct, .short 0xDA), (.indexedX, .short 0xEA),
      (.indexedY, .paged 0x18 0xEA), (.extended, .short 0xFA)]),
    ("psha".toList, [(.inherent, .short 0x36)]),
    ("pshb".toList, [(.inherent, .short 0x37)]),
    ("pshx".toList, [(.inherent, .short 0x3C)]),
    ("pshy".toList, [(.inherent, .paged 0x18 0x3C)]),
    ("pula".toList, [(.inherent, .short 0x32)]),
    ("pulb".toList, [(.inherent, .short 0x33)]),
    ("pulx".toList, [(.inherent, .short 0x38)]),
    ("puly".toList, [(.inherent, .paged 0x18 0x38)]),
    ("rol".toList, [(.indexedX, .short 0x69), (.indexedY, .paged 0x18 0x69),
      (.extended, .short 0x79)]),
    ("rola".toList, [(.inherent, .short 0x49)]),
    ("rolb".toList, [(.inherent, .short 0x59)]),
    ("ror".toList, [(.indexedX, .short 0x66), (.indexedY, .paged 0x18 0x66),
      (.extended, .short 0x76)]),
    ("rora".toList, [(.inherent, .short 0x46)]),
    ("rorb".toList, [(.inherent, .short 0x56)]),
    ("rti".toList, [(.inherent, .short 0x3B)]),
    ("rts".toList, [(.inherent, .short 0x39)]),
    ("sba".toList, [(.inherent, .short 0x10)]),
    ("sbca".toList, [(.immediate, .short 0x82), (.direct, .short 0x92), (.indexedX, .short 0xA2),
      (.indexedY, .paged 0x18 0xA2), (.extended, .short 0xB2)]),
    ("sbcb".toList, [(.immediate, .short 0xC2), (.direct, .short 0xD2), (.indexedX, .short 0xE2),
      (.indexedY, .paged 0x18 0xE2), (.extended, .short 0xF2)]),
    ("sec".toList, [(.inherent, .short 0x0D)]),
    ("sei".toList, [(.inherent, .short 0x0F)]),
    ("sev".toList, [(.inherent, .short 0x0B)]),
    ("staa".toList, [(.direct, .short 0x97), (.indexedX, .short 0xA7),
      (.indexedY, .paged 0x18 0xA7), (.extended, .short 0xB7)]),
    ("stab".toList, [(.direct, .short 0xD7), (.indexedX, .short 0xE7),
      (.indexedY, .paged 0x18 0xE7), (.extended, .short 0xF7)]),
    ("std".toList, [(.direct, .short 0xDD), (.indexedX, .short 0xED),
      (.indexedY, .paged 0x18 0xED), (.extended, .short 0xFD)]),
    ("stop".toList, [(.inherent, .short 0xCF)]),
    ("sts".toList, [(.direct, .short 0x9F), (.indexedX, .short 0xAF),
      (.indexedY, .paged 0x18 0xAF), (.extended, .short 0xBF)]),
    ("stx".toList, [(.direct, .short 0xDF), (.indexedX, .short 0xEF),
      (.indexedY, .paged 0xCD 0xEF), (.extended, .short 0xFF)]),
    ("sty".toList, [(.direct, .paged 0x18 0xDF), (.indexedX, .paged 0x1A 0xEF),
      (.indexedY, .paged 0x18 0xEF), (.extended, .paged 0x18 0xFF)]),
    ("suba".toList, [(.immediate, .short 0x80), (.direct, .short 0x90), (.indexedX, .short 0xA0),
      (.indexedY, .paged 0x18 0xA0), (.extended, .short 0xB0)]),
    ("subb".toList, [(.immediate, .short 0xC0), (.direct, .short 0xD0), (.indexedX, .short 0xE0),
      (.indexedY, .paged 0x18 0xE0), (.extended, .short 0xF0)]),
    ("subd".toList, [(.immediate, .short 0x83), (.direct, .short 0x93), (.indexedX, .short 0xA3),
      (.indexedY, .paged 0x18 0xA3), (.extended, .short 0xB3)]),
    ("swi".toList, [(.inherent, .short 0x3F)]),
    ("tab".toList, [(.inherent, .short 0x16)]),
    ("tap".toList, [(.inherent, .short 0x06)]),
    ("tba".toList, [(.inherent, .short 0x17)]),
    ("test".toList, [(.inherent, .short 0x00)]),
    ("tpa".toList, [(.inherent, .short 0x07)]),
    ("tst".toList, [(.indexedX, .short 0x6D), (.indexedY, .paged 0x18 0x6D),
      (.extended, .short 0x7D)]),
    ("tsta".toList, [(.inherent, .short 0x4D)]),
    ("tstb".toList, [(.inherent, .short 0x5D)]),
    ("tsx".toList, [(.inherent, .short 0x30)]),
    ("tsy".toList, [(.inherent, .paged 0x18 0x30)]),
    ("txs".toList, [(.inherent, .short 0x35)]),
    ("tys".toList, [(.inherent, .paged 0x18 0x35)]),
    ("wai".toList, [(.inherent, .short 0x3E)]),
    ("xgdx".toList, [(.inherent, .short 0x8F)]),
    ("xgdy".toList, [(.inherent, .paged 0x18 0x8F)])
  ]

/-- The bit instructions of the 68HC11. -/
def mc68hc11Special : List (Text × Special) :=
  [
    ("bclr".toList, ⟨2, [(.direct, .short 0x15), (.indexedX, .short 0x1D),
      (.indexedY, .paged 0x18 0x1D)]⟩),
    ("bset".toList, ⟨2, [(.direct, .short 0x14), (.indexedX, .short 0x1C),
      (.indexedY, .paged 0x18 0x1C)]⟩),
    ("brclr".toList, ⟨3, [(.direct, .short 0x13), (.indexedX, .short 0x1F),
      (.indexedY, .paged 0x18 0x1F)]⟩),
    ("brset".toList, ⟨3, [(.direct, .short 0x12), (.indexedX, .short 0x1E),
      (.indexedY, .paged 0x18 0x1E)]⟩)
  ]

/-- The instruction set of the 68HC11. -/
def mc68hc11 : Table := { standard := mc68hc11Standard, special := mc68hc11Special }

end TwoPass.Table
