import Mathlib.Data.Nat.Notation

/-! The 8x8 font of the console, `fonts/sans.c`. -/
namespace Leg

/-- The rows of the characters 33 to 126, two characters a line. -/
def sansGlyphs : List ℕ := [
  0x18, 0x18, 0x18, 0x18, 0x18, 0x00, 0x18, 0x00, 0x6c, 0x6c, 0x24, 0x00, 0x00, 0x00, 0x00, 0x00,
  0x6c, 0x6c, 0xfe, 0x6c, 0xfe, 0x6c, 0x6c, 0x00, 0x18, 0x7e, 0xc0, 0x7c, 0x06, 0xfc, 0x18, 0x00,
  0x00, 0xc6, 0xcc, 0x18, 0x30, 0x66, 0xc6, 0x00, 0x38, 0x6c, 0x38, 0x76, 0xdc, 0xcc, 0x76, 0x00,
  0x08, 0x18, 0x30, 0x00, 0x00, 0x00, 0x00, 0x00, 0x0c, 0x18, 0x30, 0x30, 0x30, 0x18, 0x0c, 0x00,
  0x30, 0x18, 0x0c, 0x0c, 0x0c, 0x18, 0x30, 0x00, 0x00, 0x66, 0x3c, 0xff, 0x3c, 0x66, 0x00, 0x00,
  0x00, 0x18, 0x18, 0x7e, 0x18, 0x18, 0x00, 0x00, 0x00, 0x00, 0x00, 0x00, 0x00, 0x08, 0x18, 0x30,
  0x00, 0x00, 0x00, 0x7e, 0x00, 0x00, 0x00, 0x00, 0x00, 0x00, 0x00, 0x00, 0x00, 0x18, 0x18, 0x00,
  0x06, 0x0c, 0x18, 0x30, 0x60, 0xc0, 0x80, 0x00, 0x7c, 0xc2, 0xc6, 0xca, 0xd2, 0xe2, 0x7c, 0x00,
  0x18, 0x38, 0x18, 0x18, 0x18, 0x18, 0x18, 0x00, 0x7c, 0x82, 0x02, 0x1c, 0x30, 0x60, 0xfe, 0x00,
  0x7c, 0x82, 0x02, 0x3c, 0x02, 0x82, 0x7c, 0x00, 0x24, 0x44, 0x84, 0x84, 0xfe, 0x04, 0x04, 0x00,
  0xfe, 0x80, 0xfc, 0x02, 0x02, 0x82, 0x7c, 0x00, 0x38, 0x60, 0xc0, 0xfc, 0xc2, 0xc2, 0x7c, 0x00,
  0xfe, 0x06, 0x0c, 0x18, 0x30, 0x60, 0xc0, 0x00, 0x7c, 0xc2, 0xc2, 0x7c, 0xc2, 0xc2, 0x7c, 0x00,
  0x7c, 0xc2, 0xc2, 0x7e, 0x02, 0x0c, 0x78, 0x00, 0x00, 0x18, 0x18, 0x00, 0x00, 0x18, 0x18, 0x00,
  0x00, 0x18, 0x18, 0x00, 0x00, 0x08, 0x18, 0x30, 0x0c, 0x18, 0x30, 0x60, 0x30, 0x18, 0x0c, 0x00,
  0x00, 0x00, 0x7e, 0x00, 0x7e, 0x00, 0x00, 0x00, 0x60, 0x30, 0x18, 0x0c, 0x18, 0x30, 0x60, 0x00,
  0x7c, 0xc6, 0x0c, 0x18, 0x18, 0x00, 0x18, 0x00, 0x7c, 0xc6, 0xde, 0xd6, 0xde, 0xc0, 0x78, 0x00,
  0x38, 0x64, 0xc2, 0xc2, 0xfe, 0xc2, 0xc2, 0x00, 0x7c, 0x62, 0x62, 0x7c, 0x62, 0x62, 0x7c, 0x00,
  0x3c, 0x62, 0xc0, 0xc0, 0xc0, 0x62, 0x3c, 0x00, 0x78, 0x64, 0x62, 0x62, 0x62, 0x64, 0x78, 0x00,
  0x7e, 0x60, 0x60, 0x78, 0x60, 0x60, 0x7e, 0x00, 0x7e, 0x60, 0x60, 0x78, 0x60, 0x60, 0x60, 0x00,
  0x3c, 0x62, 0xc0, 0xc0, 0xc6, 0x62, 0x3e, 0x00, 0xc2, 0xc2, 0xc2, 0xfe, 0xc2, 0xc2, 0xc2, 0x00,
  0x18, 0x18, 0x18, 0x18, 0x18, 0x18, 0x18, 0x00, 0x04, 0x04, 0x04, 0x04, 0xc4, 0xc4, 0x78, 0x00,
  0x62, 0x66, 0x6c, 0x78, 0x6c, 0x66, 0x62, 0x00, 0x60, 0x60, 0x60, 0x60, 0x60, 0x60, 0x7e, 0x00,
  0xc6, 0xee, 0xfa, 0xd2, 0xc2, 0xc2, 0xc2, 0x00, 0xc2, 0xe2, 0xf2, 0xda, 0xce, 0xc6, 0xc2, 0x00,
  0x7c, 0xc2, 0xc2, 0xc2, 0xc2, 0xc2, 0x7c, 0x00, 0x7c, 0x62, 0x62, 0x7c, 0x60, 0x60, 0x60, 0x00,
  0x7c, 0xc2, 0xc2, 0xc2, 0xd2, 0xda, 0x7c, 0x06, 0x7c, 0x62, 0x62, 0x7c, 0x64, 0x62, 0x62, 0x00,
  0x7c, 0xc2, 0xe0, 0x7c, 0x02, 0xc2, 0x7c, 0x00, 0x7e, 0x18, 0x18, 0x18, 0x18, 0x18, 0x18, 0x00,
  0xc2, 0xc2, 0xc2, 0xc2, 0xc2, 0xc2, 0x7c, 0x00, 0xc2, 0xc2, 0xc2, 0xc2, 0x64, 0x38, 0x10, 0x00,
  0xc2, 0xc2, 0xc2, 0xd2, 0xfa, 0xe6, 0xc2, 0x00, 0xc2, 0xc2, 0x64, 0x38, 0x64, 0xc2, 0xc2, 0x00,
  0x62, 0x62, 0x62, 0x3c, 0x18, 0x18, 0x18, 0x00, 0xfe, 0x06, 0x0c, 0x18, 0x30, 0x60, 0xfe, 0x00,
  0x3c, 0x30, 0x30, 0x30, 0x30, 0x30, 0x3c, 0x00, 0xc0, 0x60, 0x30, 0x18, 0x0c, 0x06, 0x02, 0x00,
  0x3c, 0x0c, 0x0c, 0x0c, 0x0c, 0x0c, 0x3c, 0x00, 0x10, 0x38, 0x6c, 0xc6, 0x00, 0x00, 0x00, 0x00,
  0x00, 0x00, 0x00, 0x00, 0x00, 0x00, 0x00, 0xff, 0x30, 0x18, 0x0c, 0x00, 0x00, 0x00, 0x00, 0x00,
  0x00, 0x00, 0x78, 0x04, 0x7c, 0xc4, 0x7c, 0x00, 0x60, 0x60, 0x60, 0x7c, 0x62, 0x62, 0x7c, 0x00,
  0x00, 0x00, 0x7c, 0xc2, 0xc0, 0xc2, 0x7c, 0x00, 0x0c, 0x0c, 0x0c, 0x7c, 0xcc, 0xcc, 0x7c, 0x00,
  0x00, 0x00, 0x7c, 0xc2, 0xfe, 0xc0, 0x7e, 0x00, 0x38, 0x64, 0x60, 0xf0, 0x60, 0x60, 0x60, 0x00,
  0x00, 0x00, 0x78, 0xc4, 0xc4, 0x7c, 0x04, 0x78, 0x60, 0x60, 0x6c, 0x72, 0x62, 0x62, 0x62, 0x00,
  0x18, 0x00, 0x18, 0x18, 0x18, 0x18, 0x18, 0x00, 0x06, 0x00, 0x06, 0x06, 0x06, 0x66, 0x66, 0x3c,
  0x60, 0x60, 0x66, 0x6c, 0x78, 0x6c, 0x66, 0x00, 0x18, 0x18, 0x18, 0x18, 0x18, 0x18, 0x1c, 0x00,
  0x00, 0x00, 0xec, 0xd2, 0xd2, 0xc2, 0xc2, 0x00, 0x00, 0x00, 0x7c, 0x62, 0x62, 0x62, 0x62, 0x00,
  0x00, 0x00, 0x7c, 0xc2, 0xc2, 0xc2, 0x7c, 0x00, 0x00, 0x00, 0x7c, 0x62, 0x62, 0x7c, 0x60, 0x60,
  0x00, 0x00, 0x7c, 0xcc, 0xcc, 0x7c, 0x0c, 0x0c, 0x00, 0x00, 0x7c, 0x62, 0x60, 0x60, 0x60, 0x00,
  0x00, 0x00, 0x7c, 0xc0, 0x7c, 0x06, 0xfc, 0x00, 0x10, 0x30, 0x7c, 0x30, 0x30, 0x30, 0x18, 0x00,
  0x00, 0x00, 0xc4, 0xc4, 0xc4, 0xc4, 0x7c, 0x00, 0x00, 0x00, 0xc2, 0xc2, 0xc2, 0x64, 0x38, 0x00,
  0x00, 0x00, 0xc2, 0xc2, 0xd2, 0xfa, 0x64, 0x00, 0x00, 0x00, 0xc2, 0x64, 0x38, 0x64, 0xc2, 0x00,
  0x00, 0x00, 0xc2, 0xc2, 0xc2, 0x7e, 0x02, 0x7c, 0x00, 0x00, 0xfe, 0x0c, 0x18, 0x30, 0xfe, 0x00,
  0x0e, 0x18, 0x18, 0x70, 0x18, 0x18, 0x0e, 0x00, 0x18, 0x18, 0x18, 0x00, 0x18, 0x18, 0x18, 0x00,
  0x70, 0x18, 0x18, 0x0e, 0x18, 0x18, 0x70, 0x00, 0x00, 0x00, 0x00, 0x76, 0xdc, 0x00, 0x00, 0x00]

/-- `sans_data`: eight rows for each character. The characters up to the space and those from
127 on are blank. -/
def sansData : List ℕ :=
  List.replicate 264 0 ++ sansGlyphs ++ List.replicate 1032 0

theorem sansData_space : ∀ row < 8, sansData.getD (32 * 8 + row) 0 = 0 := by
  decide +kernel

end Leg
