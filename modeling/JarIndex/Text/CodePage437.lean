import JarIndex.Bytes

/-!
# Code page 437

One character for each byte; the lower half is ASCII.
-/

set_option autoImplicit false

namespace JarIndex.CodePage437

def upperHalf : Array Char := String.toList
  ("ÇüéâäàåçêëèïîìÄÅÉæÆôöòûùÿÖÜ¢£¥₧ƒáíóúñÑªº¿⌐¬½¼¡«»░▒▓│┤╡╢╖╕╣║╗╝╜╛┐" ++
    "└┴┬├─┼╞╟╚╔╩╦╠═╬╧╨╤╥╙╘╒╓╫╪┘┌█▄▌▐▀αßΓπΣσµτΦΘΩδ∞φε∩≡±≥≤⌠⌡÷≈°∙·√ⁿ²■\u00a0") |>.toArray

def decodeByte (b : UInt8) : Char :=
  if b < 0x80 then Char.ofNat b.toNat else upperHalf.getD (b.toNat - 0x80) ' '

def decode (bs : Bytes) : String := String.ofList (bs.map decodeByte)

end JarIndex.CodePage437
