import ExtensionLowering.Unicode.Category
/-!
# Scripts

The script of every code point that has one, and the labels of the scripts in the table.
-/
namespace ExtensionLowering.Unicode

def scriptNames : List String := List.flatMap (·.splitOn " ") [
  "Adlam Ahom Anatolian_Hieroglyphs Arabic Armenian Avestan Balinese Bamum Bassa_Vah Batak",
  "Bengali Beria_Erfe Bhaiksuki Bopomofo Brahmi Braille Buginese Buhid Canadian_Aboriginal Carian",
  "Caucasian_Albanian Chakma Cham Cherokee Chorasmian Common Coptic Cuneiform Cypriot",
  "Cypro_Minoan Cyrillic Deseret Devanagari Dives_Akuru Dogra Duployan Egyptian_Hieroglyphs",
  "Elbasan Elymaic Ethiopic Garay Georgian Glagolitic Gothic Grantha Greek Gujarati Gunjala_Gondi",
  "Gurmukhi Gurung_Khema Han Hangul Hanifi_Rohingya Hanunoo Hatran Hebrew Hiragana",
  "Imperial_Aramaic Inherited Inscriptional_Pahlavi Inscriptional_Parthian Javanese Kaithi",
  "Kannada Katakana Kawi Kayah_Li Kharoshthi Khitan_Small_Script Khmer Khojki Khudawadi Kirat_Rai",
  "Lao Latin Lepcha Limbu Linear_A Linear_B Lisu Lycian Lydian Mahajani Makasar Malayalam Mandaic",
  "Manichaean Marchen Masaram_Gondi Medefaidrin Meetei_Mayek Mende_Kikakui Meroitic_Cursive",
  "Meroitic_Hieroglyphs Miao Modi Mongolian Mro Multani Myanmar Nabataean Nag_Mundari Nandinagari",
  "New_Tai_Lue Newa Nko Nushu Nyiakeng_Puachue_Hmong Ogham Ol_Chiki Ol_Onal Old_Hungarian",
  "Old_Italic Old_North_Arabian Old_Permic Old_Persian Old_Sogdian Old_South_Arabian Old_Turkic",
  "Old_Uyghur Oriya Osage Osmanya Pahawh_Hmong Palmyrene Pau_Cin_Hau Phags_Pa Phoenician",
  "Psalter_Pahlavi Rejang Runic Samaritan Saurashtra Sharada Shavian Siddham Sidetic SignWriting",
  "Sinhala Sogdian Sora_Sompeng Soyombo Sundanese Sunuwar Syloti_Nagri Syriac Tagalog Tagbanwa",
  "Tai_Le Tai_Tham Tai_Viet Tai_Yo Takri Tamil Tangsa Tangut Telugu Thaana Thai Tibetan Tifinagh",
  "Tirhuta Todhri Tolong_Siki Toto Tulu_Tigalari Ugaritic Vai Vithkuqi Wancho Warang_Citi Yezidi",
  "Yi Zanabazar_Square"]

/-- Scripts are labelled in the order of their names: A0 to Af, B0 to Bf and so on. -/
def scriptLabel (i : Nat) : String :=
  String.ofList [Char.ofNat ('A'.toNat + i / 16), Nat.digitChar (i % 16)]

def scriptLabels : List (String × String) :=
  scriptNames.mapIdx fun i name => (name, scriptLabel i)

/-- The runs of scripts. A code point that stands for no character is in the run before it. -/
def scriptLines : List String := [
  "B941Ea1aB96Ea1aB92fEaB9fEaB95Ea17B9Ea1fB9Ea1c1B927Ea5B95Ad2B914Da70Cd4B9Cd9B9Cd6B9CdB9Cd5a",
  "BaeCd10Be85Da2BeaaA460D76fA35B9A36B9A3eB9A33B9A320B9A3aDabA31aDaA36cB9A322J150A330Jd40G940",
  "I340F520J110A372B9A31dC051Da4C0fB92C01aAa81D080Ce80H881J97eJc80Df80F481Ia80Je3eB9Je41E97f",
  "Jfd5B94Jf27G3a0C95bB9C94D3100C71a0B760B2280Gc20I24bB93I212J220D515B9bB120J320E580G02B92G0B9",
  "G0aaB250Ec50J430G760E520B020J590Da50A680Ie40A940Eb50Gd30Be10C930Ie10Da3B9DadB9Da7B94DaB96Da",
  "B93Da2B96Ea26Cd5BeEa31Cd5Ea4Cd5EadBeEa46CdDa40Ea100Cd100B9cDa2B963Ea3B9bEaB910Ea10B930Da30",
  "B926CdB93Ea2B96EaB91bEaB911Ea29B9677Af100B9300Ca60Ea20Ba80C930K050C760Be20B980D2170B915D2B9",
  "D2B919D29Da4D32B98D24B95D858Da2B92D83B9E05aB92E08Ad2cD35fB910Ad20B930E010D320B940D31fB951",
  "E02fB9E058B9a8D219c0B940D25200Kc4d0Ef30K7140Be60A760B922Ea66B93Ea75J030B910He40I460C020E22e",
  "B9E2I130D320Dd4fB9Dd10G320B660G320J660Fa21C72fEa2bB9Ea9CdEa4B96B750Fa40D34d00D2200Ea13A4a",
  "D733A31eeB92A3c0Da10B910DaeBe2B940A38fB922Ea1aB96Ea1aB9bE0aB9E02dB92D340B920Ee100B940Cd50",
  "B910Cd30B92dDa83F020B340DaB91fH030Cb20H230K620H360Bf50I630Ha30H950C530B440K850K240Ed180Ea80",
  "Bc40D920Hc20G460D620Hf20F120I840Fd20Fc60E360H520H140F640A540Dc20Db20I080H680Gf80D440C8120",
  "A320Kb42A33eH430Ib40H740B830C620Ae80De50Ic30B550F230I561Ia1fE680G230E750Cc3bDaCc44K580G880",
  "K1100I780Ff60G020J850G330A1100C2a0Ka60C1a0G660Kd50Id60B210Hd40C060I560If40Ac70F790F860Cf50",
  "K3130F320E1b0Ef10J940Bbf90Bd70C41400A21d00D1700A7240G130Ja60A830Hb240E8100F960Ab60Fee0JbGa",
  "D22E4cD210Jb1b00E4200Jb22f0E011D811fE012D823E01bGaa90C3a0B91260Da50B9217Da3B911Da8B92Da7B91e",
  "Da4B952Cdc0B9540I9700Ea100Ca30Bed0Gb190K430K9210G5100Gef0J7120C720Fb100A0371B918fA3200B9200",
  "D8B9dffD2c0001B9ffDa2ff00"]

def scriptRuns : List Run :=
  runs scriptLines

/-- A range without the code points in some others, which are in order. -/
def without : List Range → Range → List Range
  | [], r => [r]
  | (first, last) :: rs, (lo, hi) =>
    if hi < first then [(lo, hi)]
    else if last < lo then without rs (lo, hi)
    else (if lo < first then [(lo, first - 1)] else []) ++
      if last < hi then without rs (last + 1, hi) else []

def scriptRanges (label : String) : List Range :=
  (rangesOf scriptRuns [label]).flatMap (without (rangesOf categoryRuns ["Cn", "Co", "Cs"]))

end ExtensionLowering.Unicode
