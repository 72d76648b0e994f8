/-!
# General categories of characters

The general category of every Unicode character, as runs of neighbouring code points. `runs` writes
each run as one letter, the place of its category in `names`, and its length where that is not one.
-/

namespace HttpContract.Category

/-- The abbreviations of the general categories. -/
def names : List String :=
  ["Cc", "Cf", "Cn", "Co", "Cs", "Ll", "Lm", "Lo", "Lt", "Lu", "Mc", "Me", "Mn", "Nd", "Nl",
    "No", "Pc", "Pd", "Pe", "Pf", "Pi", "Po", "Ps", "Sc", "Sk", "Sm", "So", "Zl", "Zp", "Zs"]

/-- The runs of the code points from zero upward. -/
def runs : String :=
  "A32dV3XV3WSVZVRV2N10V2Z3V2J26WVSYQYF26WZSZA33dVX4aVYaHUZBaYaZP2YFV2YPHTP3VJ23ZJ7F24ZF8JFJFJF" ++
  "JFJFJFJFJFJFJFJFJFJFJFJFJFJFJFJFJFJFJFJFJFJFJFJFJF2JFJFJFJFJFJFJFJF2JFJFJFJFJFJFJFJFJFJFJFJF" ++
  "JFJFJFJFJFJFJFJFJFJFJFJ2FJFJF3J2FJFJ2FJ3F2J4FJ2FJ3F3J2FJ2FJFJFJ2FJF2JFJ2FJ3FJFJ2F2HJF3H4JIFJ" ++
  "IFJIFJFJFJFJFJFJFJFJF2JFJFJFJFJFJFJFJFJF2JIFJFJ3FJFJFJFJFJFJFJFJFJFJFJFJFJFJFJFJFJFJFJFJFJFJ" ++
  "FJFJFJFJFJFJFJF7J2FJ2F2JFJ4FJFJFJFJF69HF27G18Y4G12Y14G5Y7GYGY17M112JFJFGYJFC2GF3VJC4Y2JVJ3CJ" ++
  "CJ2FJ17CJ9F35JF2J3F3JFJFJFJFJFJFJFJFJFJFJFJF5JFZJFJ2F2J51F48JFJFJFJFJFJFJFJFJFJFJFJFJFJFJFJF" ++
  "JFaM5L2JFJFJFJFJFJFJFJFJFJFJFJFJFJFJFJFJFJFJFJFJFJFJFJFJFJFJFJ2FJFJFJFJFJFJF2JFJFJFJFJFJFJFJ" ++
  "FJFJFJFJFJFJFJFJFJFJFJFJFJFJFJFJFJFJFJFJFJFJFJFJFJFJFJFJFJFJFJFJFJFJFJFJFJFJFJFJFCJ38C2GV6" ++
  "F41VRC2a2XCM45RMVM2VM2VMC8H27C4H4V2C11B6Z3V2XV2a2M11VBV3H32GH10M21N10V4H2MH99VHM7BaM6G2M2aM4" ++
  "H2N10H3a2HV14CBHMH30M27C2H89M11HC14N10H33M9G2aV3GC2MX2H22M4GM9GM3GM5C2V15CH25M3C2VCH11C5H24Y" ++
  "H6CB2C6M8H41GM24BM32KH54MKMHK3M8K4MK2HM7H10M2V2N10VGH15MK2CH8C2H2C2H22CH7CHC3H4C2MHK3M4C2K2" ++
  "C2K2MHC8KC4H2CH3M2C2N10H2X2P6aXHVMC2M2KCH6C4H2C2H22CH7CH2CH2CH2C2MCK3M2C4M2C2M3C3MC7H4CHC7" ++
  "N10M2H3MVC10M2KCH9CH3CH22CH7CH2CH5C2MHK3M5CM2KCK2MC2HC15H2M2C2N10VXC7HM6CMK2CH8C2H2C2H22CH7C" ++
  "H2CH5C2MHKMKM4C2K2C2K2MC7M2KC4H2CH3M2C2N10aHP6C10MHCH6C3H3CH4C3H2CHCH2C3H2C3H3C3H12C4K2MK2C3" ++
  "K3CK3MC2HC6KC14N10P3a6XaC5MK3MH8CH3CH23CH16C2MHM3K4CM3CM4C7M2CH3C2HC2H2M2C2N10C7VP7aHMK2VH8C" ++
  "H3CH23CH10CH5C2MHKMK5CMK2CK2M2C7K2C6H2CH2M2C2N10CH2C13M2K2H9CH3CH41M2HK3M4CK3CK3MHaC4H3KP7H3" ++
  "M2C2N10P9aH6CMK2CH18C3H24CH9CHC2H7C3MC4K3M3CMCK8C6N10C2K2VC12H48MH2M7C4XH6GM8VN10V2C37H2CHC" ++
  "H5CH24CHCH10MH2M9HC2H5CGCM6C2N10C2H4C32Ha3V15aVa3M2a6N10P10aMaMaMWSWSK2H8CH36C4M14KM5VM2H5" ++
  "M11CM36Ca8Ma6Ca2V5a4V2C37H43K2M4KM6KM2K2M2HN10V6H6K2M2H4M3HK3H2K7H3M4H13MK2M2K6MHKN10K3Ma2" ++
  "J38CJC5JC2F43VGF3H329CH4C2H7CHCH4C2H41CH4C2H33CH4C2H7CHCH4C2H15CH57CH4C2H67C2M3V9P20C3H16a10" ++
  "C6J86C2F6C2RH620aVH17dH26WSC3H75V3O3H8C7H18M3KC9H19M2KV2C9H18M2C12H13CH3CM2C12H52M2KM7K8MK2" ++
  "M11V3GV3XHMC2N10C6P10C6V6RV4M3BMN10C6H35GH53C7H5M2H34MHC5H70C10H31CM3K4M2K3C4K2MK6M3C4aC3V2" ++
  "N10H30C2H5C11H44C4H26C6N10PC3a34H23M2K2MC2V2H53KMKM7CMKMK2M8K6M10C2MN10C6N10C6V7GV6C2M14LM16" ++
  "C49M4KH47MKM5KMK5MK2H8C3N10V7a10M9a9V2CM2KH30KM4K2M2KM3H2N10H44MKM2K3MKM3K2C8V4H36K8M8K2M2C3" ++
  "V5N10C3H3N10H30G6V2F9C7J43C2J3V8C8M3VM13KM7H4MH6MH2KM2HC5F44G63F13GF34G37M64JFJFJFJFJFJFJFJF" ++
  "JFJFJFJFJFJFJFJFJFJFJFJFJFJFJFJFJFJFJFJFJFJFJFJFJFJFJFJFJFJFJFJFJFJFJFJFJFJFJFJFJFJFJFJFJFJF" ++
  "JFJFJFJFJFJFJFJFJFJFJFJFJFJFJFJFJFJFJFJFJF9JFJFJFJFJFJFJFJFJFJFJFJFJFJFJFJFJFJFJFJFJFJFJFJFJ" ++
  "FJFJFJFJFJFJFJFJFJFJFJFJFJFJFJFJFJFJFJFJFJFJFJFJF9J8F6C2J6C2F8J8F8J8F6C2J6C2F8CJCJCJCJF8J8" ++
  "F14C2F8I8F8I8F8I8F5CF2J4IYFY3F3CF2J4IY3F4C2F2J4CY3F8J5Y3C2F3CF2J4IY2Cd11B5R6V2UTWU2TWUV8bcB5" ++
  "dV9UTV4Q2V3ZWSV11ZVQV10dB5CB10PGC2P6Z3WSGP10Z3WSCG13C3X33C15M13L4ML3M12C15a2Ja4Ja2FJ3F2J3FaJ" ++
  "a2ZJ5a6JaJaJaJ4aFJ4FH4Fa2F2J2Z5JF4aZa2FaP16O35JFO4Pa2C4Z5a5Z2a4Za2Za2Za7Za31Z2a2ZaZa31Z268a8" ++
  "WSWSa20Z2a7WSa81Za30Z25a40Z6a69C25a11C21P60a78P22a183Za9Za54Z8a111Za248WSWSWSWSWSWSWSP30a44" ++
  "Z5WSZ31WSWSWSWSWSZ16a256Z131WSWSWSWSWSWSWSWSWSWSWSZ63WSWSZ32WSZ258a48Z21a2Z6a39C2a32Ca105J48" ++
  "F48JFJ3F2JFJFJFJ4FJF2JF6G2J3FJFJFJFJFJFJFJFJFJFJFJFJFJFJFJFJFJFJFJFJFJFJFJFJFJFJFJFJFJFJFJFJ" ++
  "FJFJFJFJFJFJFJFJFJFJFJFJFJFJFJFJFJF2a6JFJFM3JFC5V4PV2F38CFC5FC2H56C7GVC14MH23C9H7CH7CH7CH7C" ++
  "H7CH7CH7CH7CM32V2UTUTV3UTVUTV9RV2RVUTV2UTWSWSWSWSV5GV10R2V4RVWV13a2V3WSWSWSWSRC34a26Ca89C12" ++
  "a214C26a12C4dV3aGHOWSWSWSWSWSa2WSWSWSWSRWS2aO9M4K2RG5a2O3GHVa2CH86C2M2Y2G2HRH90VG3HC5H43CH94" ++
  "Ca2P4a10H32a36C12H16a31CP10a30P8aP15a32P10a39P15a320H6592a64H21013GH1143C3a55C9H40G6V2H268G" ++
  "V3H16N10H2C20JFJFJFJFJFJFJFJFJFJFJFJFJFJFJFJFJFJFJFJFJFJFJFHML3VM10VGJFJFJFJFJFJFJFJFJFJFJFJ" ++
  "FJFJFG2M2H70O10M2V6C8Y23G9Y2JFJFJFJFJFJFJF3JFJFJFJFJFJFJFJFJFJFJFJFJFJFJFJFJFJFJFJFJFJFJFJFJ" ++
  "FJFJFJFJFJFJFGF8JFJFJ2FJFJFJFJFGY2JFJFHJFJF3JFJFJFJFJFJFJFJFJFJFJ5FJ5FJFJFJFJFJFJFJFJ4FJFC5J" ++
  "FCFCFJFJFC24G3JFHG2FH7MH3MH4MH23K2M2Ka4MC3P6a2XaC6H52V4C8K2H50K16M2C8V2N10C6M18H6V3HVH2MN10" ++
  "H28M8V2H23M11K2C11VH29C3M3KH47MK2M4K2M2K3V13CGN10C4V2H5MGH9N10H5CH41M6K2M2K2M2C9H3MH8MKC2N10" ++
  "C2V4H16GH6a3HKMKH50MHM3H2M2H5M2HMHC24H2GV2H11KM2K2V2HG2KMC10H6C2H6C2H6C9H7CH7CF43YG4F9GY2C4" ++
  "F80H35K2MK2MK2VKMC2N10C6H11172C12H23C4H49C4E2048D6400H366C2H106C38F7C12F5C5HMH10ZH13CH5CHCH2" ++
  "CH2CH108Y17C16H363SWa16H64C2H54C7aC32H12Xa3M16V7WSVC6M16VR2Q2WSWSWSWSWSWSWSWSV2WSV4Q3V3CV4RW" ++
  "SWSWSV3ZRZ3CVXV2C4H5CH135C2BCV3XV3WSVZVRV2N10V2Z3V2J26WVSYQYF26WZSZWSVWSV2H10GH45G2H31C3H6C2" ++
  "H6C2H6C2H3C3X2ZYaX2CaZ4a2C10B3a2C2H12CH26CH19CH2CH15C2H14C34H123C5V3C4P45C3a9O53P4a17P2a3C" ++
  "a13C3aC47a45MC130H29C3H49C15MP27C4H32P4C9H20OH8OC5H38M5C5H30CVH36C4H8VO5C42J40F40H78C2N10C6" ++
  "J36C4F36C4H40C8H52C11VJ11CJ15CJ7CJ2CF11CF15CF7CF2C67H311C9H22C10H8C24G6CG42CG9C69H6C2HCH44C" ++
  "H2C3HC2H23CVP8H23a2P7H31C8P9C48H19CH2C5P5H22P6C3VH26C5VC64H56C4P2H2P16C2P46HM3CM2C5M4H4CH3C" ++
  "H29C2M3C4MP9C7V9C7H29P2VH29P3C32H8aH28M2C4P5V7C9H54C3V7H22C2P8H19C5P8H18C7V4C12P7C80H73C55" ++
  "J51C13F51C7P6H36M4C8N10C294P31CH42CM2RC2H2C78H29P10HC8H22M11P4V5C22H18M4V4C38H21P7C20H23C9KM" ++
  "KH53M15V7C4P20N10MH2M2HC9M3KH45K3M4K2M2V2BV4MC10BC2H25C7N10C6M3H36M5KM8CN10V4HK2HC8H35MV2HC9" ++
  "M2KH48K3M9K2H4V4M4VKMN10HVHV3CP20C11H18CH25K3M3K2MKM2V6MC65H7CHCH4CH15CH10VC6H47MK3M8C5N10C6" ++
  "M2K2CH8C2H2C2H22CH7CH2CH5CM2HK2MK4C2K2C2K3C2HC6KC5H5K2C2M7C3M5C139H53K3M8K2M3KMH4V5N10V2CVM" ++
  "H3C30H48K3M6KMK4M2KM2H2VHC8N10C166H47K3M4C2K4M2KM2V23H4M2C34H48K3M8K2MKM2V3HC11N10C6V13C19" ++
  "H43MKMK2M6KMHVC6N10C54H27C2M3K2M4KM5C4N10P2V3aH7C185H44K3M9KM2VC100J32F32N10P9C12H8C2HC2H8C" ++
  "H2CH24K6CK2C2M2KMHKHKMV3C9N10C70H8C2H39K3M4C2M2K4MHVHKC27HM10H40M6KHM4V8MC8HM6K2M3H46M13KM2" ++
  "V3HV5C13H73C263H9CH37KM7CM6KMHV5C10N10P19C3V2H30C2M22CKM7KM2KM2C73H7CH2CH38M6C3MCM2CM7HMC8" ++
  "N10C6H6CH2CH32K5CM2CK2MKMHC7N10C310H19M2K2V2C183HC15P21a8X4a17C13VH922C102O111CV5C11H196" ++
  "C2636H97V2C13H1071CB9C4039H583C8633H569C7H31CN10C4V2H79CN10C6H30C2M5VC10H48M7V5a4G4VaC10N10C" ++
  "P7CH21C5H19C688J32F32P23V4C101H75C4MHK55C7M4G13C64G2VGMC11K2C14H6136C8H1238C42H9C8935G4CG7C" ++
  "G2CH291C45H3C17H4C8H396C2308H107C5H13C3H9C7H10C2aM2VB4C4700M46C2M23C9a116C60a246C10a39C2a60" ++
  "K2M3a3K6B8M8a2M7a30M4a61C21a66M3aC154P20C12a87C9P25C135J26F26J26F7CF18J26F26JCJ2C2JC2J2C2J4C" ++
  "J8F4CFCF7CF11J26F26J2CJ4C2J8CJ7CF26J2CJ4CJ5CJC3J7CF26J26F26J26F26J26F26J26F26J26F26J26F28C2" ++
  "J25ZF25ZF6J25ZF25ZF6J25ZF25ZF6J25ZF25ZF6J25ZF25ZF6JFC2N50a512M55a4M50a8Ma14Ma2V5C15M5CM15" ++
  "C1104F10HF20C225M7CM17C2M7CM2CM5C213H45C3M7G7C2N10C4HaC320H30MC17H44M4N10C5XC1248H7CH4CH2C" ++
  "H15CH197C2P9M7C41J34F34M7GC4N10C4V2C785P59aP3XP4C76P45aP15C194H4CH27CH2CHC2HCH10CH4CHCHC6HC4" ++
  "HCHCHCH3CH2CHC2HCHCHCHCHCH2CHC2H4CH7CH4CH4CHCH10CH17C5H3CH5CH17C52Z2C270a44C4a100C12a15C2a15" ++
  "Ca15Ca37C10P13a161C56a29C13a44C4a9C7a2C14a6C154a251Y5a728C5a16C3a13C3a116C12a89C7a12C4aC15" ++
  "a12C4a56C8a10C6a40C8a30C2a2C78a340C12a14C2a5C3a5C3a7C9a29C3a11C5a6C10a10C6a8C8a7C9a147Ca55" ++
  "C37N10C1030H42720C32H4153C7H222C2H5762C14H7473C3103H542C1506H4939C715958BC30B96C128M240" ++
  "C65040D65534C2D65534C2"

/-- The place of a category's letter in the list of names. -/
def placeOf (c : Char) : Nat := if c.isUpper then c.toNat - 65 else c.toNat - 97 + 26

/-- Split written runs into pairs of a place and a length. -/
def decode : List Char → List (Nat × Nat)
  | [] => []
  | c :: rest =>
    if c.isDigit then decode rest
    else
      let digits := rest.takeWhile Char.isDigit
      let length := if digits.isEmpty then 1
        else digits.foldl (fun n d => n * 10 + (d.toNat - 48)) 0
      (placeOf c, length) :: decode rest

/-- The decoded runs. -/
def table : List (Nat × Nat) := decode runs.toList

/-- The place of the category of a code point, counted from the start of the given runs. -/
def lookup : List (Nat × Nat) → Nat → Option Nat
  | [], _ => none
  | (place, length) :: rest, n => if n < length then some place else lookup rest (n - length)

/-- The abbreviation of a character's general category. -/
def of (c : Char) : String := ((lookup table c.toNat).bind (names[·]?)).getD "Cn"

/-- The long names of the categories and their groups, in lower case and without separators. -/
def longNames : List (String × String) :=
  [("letter", "L"), ("uppercaseletter", "Lu"), ("lowercaseletter", "Ll"), ("titlecaseletter", "Lt"),
    ("modifierletter", "Lm"), ("otherletter", "Lo"), ("mark", "M"), ("nonspacingmark", "Mn"),
    ("spacingmark", "Mc"), ("enclosingmark", "Me"), ("number", "N"), ("decimalnumber", "Nd"),
    ("letternumber", "Nl"), ("othernumber", "No"), ("punctuation", "P"),
    ("connectorpunctuation", "Pc"), ("dashpunctuation", "Pd"), ("openpunctuation", "Ps"),
    ("closepunctuation", "Pe"), ("initialpunctuation", "Pi"), ("finalpunctuation", "Pf"),
    ("otherpunctuation", "Po"), ("symbol", "S"), ("mathsymbol", "Sm"), ("currencysymbol", "Sc"),
    ("modifiersymbol", "Sk"), ("othersymbol", "So"), ("separator", "Z"), ("spaceseparator", "Zs"),
    ("lineseparator", "Zl"), ("paragraphseparator", "Zp"), ("other", "C"), ("control", "Cc"),
    ("format", "Cf"), ("unassigned", "Cn"), ("privateuse", "Co"), ("surrogate", "Cs")]

/-- The category or group of categories with the given name, in any case and with any separators. -/
def ofName? (name : String) : Option String :=
  let plain := String.ofList ((name.toList.filter Char.isAlphanum).map Char.toLower)
  match longNames.find? (fun e => e.1 == plain || e.2.toLower == plain) with
  | some e => some e.2
  | none => none

/-- Whether a character belongs to a category or to a group, which its first letter names. -/
def belongs (category : String) (c : Char) : Bool :=
  let own := of c
  own == category || (category.length == 1 && own.startsWith category)

/-- Whether a character can be part of a word: letters, marks, decimal digits, connectors and
joiners. -/
def isWord (c : Char) : Bool :=
  if c.toNat < 128 then c.isAlphanum || c == '_'
  else belongs "L" c || belongs "M" c || ["Nd", "Nl", "Pc"].contains (of c)
    || c.toNat == 0x200C || c.toNat == 0x200D || (0x24B6 ≤ c.toNat && c.toNat ≤ 0x24E9)

end HttpContract.Category
