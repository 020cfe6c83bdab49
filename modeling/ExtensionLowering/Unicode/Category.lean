import ExtensionLowering.Unicode.Runs
/-!
# General categories

The general category of every code point, and the code points of a category or of a group of
categories.
-/
namespace ExtensionLowering.Unicode

def categoryLines : List String := [
  "Cc20ZsPo3ScPo3PsPePoSmPoPdPo2NdaPo2Sm3Po2Lu1aPsPoPeSkPcSkLl1aPsSmPeSmCc21ZsPoSc4SoPoSkSoLoPi",
  "SmCfSoSkSoSmNo2SkLlPo2SkNoLoPfNo3PoLu17SmLu7Ll18SmLl8Lull1bLuLl2Lull7LuLl2Lull17Lu2Lllu2Ll3",
  "Lu2LlLuLlLu2LlLu3Ll2Lu4LlLu2LlLu3Ll3Lu2LlLu2Lllu2LlLu2LlLuLl2LuLlLu2LlLu3LlLuLlLu2Ll2LoLuLl3",
  "Lo4LuLtLlLuLtLlLuLtLllu8Ll2Lull8LuLl2LuLtLlLuLlLu3Lllu1dLl7Lu2LlLu2Ll2LuLlLu4Lllu4Ll45Lo2",
  "Ll1aLm12Sk4LmcSkeLm5Sk7LmSkLmSk11Mn70Lull2LmSkLuLlCn2LmLl3PoLuCn4Sk2LuPoLu3CnLuCnLu2LlLu11Cn",
  "Lu9Ll23LuLl2Lu3Ll3LullbLuLl5LuLlSmLuLlLu2Ll2Lu33Ll30Lull11SoMn5Me2Lull1bLu2Lllu6Ll2Lull30Cn",
  "Lu26Cn2LmPo6Ll29PoPdCn2So2ScCnMn2dPdMnPoMn2PoMn2PoMnCn8Lo1bCn4Lo4Po2CnbCf6Sm3Po2ScPo2So2Mnb",
  "PoCfPo3Lo20LmLoaMn15NdaPo4Lo2MnLo63PoLoMn7CfSoMn6Lm2Mn2SoMn4Lo2NdaLo3So2LoPoeCnCfLoMnLo1e",
  "Mn1bCn2Lo59MnbLoCneNdaLo21Mn9Lm2SoPo3LmCn2MnSc2Lo16Mn4LmMn9LmMn3LmMn5Cn2PofCnLo19Mn3Cn2PoCn",
  "LobCn5Lo18SkLo7Cf2Cn5Mn9Lo29LmMn18CfMn20McLo36MnMcMnLoMc3Mn8Mc4MnMc2LoMn7LoaMn2Po2NdaPoLmLof",
  "MnMc2CnLo8Cn2Lo2Cn2Lo16CnLo7CnLoCn3Lo4Cn2MnLoMc3Mn4Cn2Mc2Cn2Mc2MnLoCn8McCn4Lo2CnLo3Mn2Cn2Nda",
  "Lo2Sc2No6SoScLoPoMnCn2Mn2McCnLo6Cn4Lo2Cn2Lo16CnLo7CnLo2CnLo2CnLo2Cn2MnCnMc3Mn2Cn4Mn2Cn2Mn3",
  "Cn3MnCn7Lo4CnLoCn7NdaMn2Lo3MnPoCnaMn2McCnLo9CnLo3CnLo16CnLo7CnLo2CnLo5Cn2MnLoMc3Mn5CnMn2McCn",
  "Mc2MnCn2LoCnfLo2Mn2Cn2NdaPoScCn7LoMn6CnMnMc2CnLo8Cn2Lo2Cn2Lo16CnLo7CnLo2CnLo5Cn2MnLoMcMnMc",
  "Mn4Cn2Mc2Cn2Mc2MnCn7Mn2McCn4Lo2CnLo3Mn2Cn2NdaSoLoNo6CnaMnLoCnLo6Cn3Lo3CnLo4Cn3Lo2CnLoCnLo2",
  "Cn3Lo2Cn3Lo3Cn3LocCn4Mc2MnMc2Cn3Mc3CnMc3MnCn2LoCn6McCneNdaNo3So6ScSoCn5MnMc3MnLo8CnLo3CnLo17",
  "CnLo10Cn2MnLoMn3Mc4CnMn3CnMn4Cn7Mn2CnLo3CnLo2Cn2Lo2Mn2Cn2NdaCn7PoNo7SoLoMnMc2PoLo8CnLo3Cn",
  "Lo17CnLoaCnLo5Cn2MnLoMcMnMc5CnMnMc2CnMc2Mn2Cn7Mc2Cn5Lo3CnLo2Mn2Cn2NdaCnLo2McCncMn2Mc2Lo9Cn",
  "Lo3CnLo29Mn2LoMc3Mn4CnMc3CnMc3MnLoSoCn4Lo3McNo7Lo3Mn2Cn2NdaNo9SoLo6CnMnMc2CnLo12Cn3Lo18CnLo9",
  "CnLoCn2Lo7Cn3MnCn4Mc3Mn3CnMnCnMc8Cn6NdaCn2Mc2PoCncLo30MnLo2Mn7Cn4ScLo6LmMn8PoNdaPo2Cn25Lo2Cn",
  "LoCnLo5CnLo18CnLoCnLoaMnLo2Mn9LoCn2Lo5CnLmCnMn7CnNdaCn2Lo4Cn20LoSo3PofSoPoSo3Mn2So6NdaNoa",
  "Somn3Pspe2Mc2Lo8CnLo24Cn4MneMcMn5PoMn2Lo5MnbCnMn24CnSo8MnSo6CnSo2Po5So4Po2Cn25Lo2bMc2Mn4Mc",
  "Mn6McMn2Mc2Mn2LoNdaPo6Lo6Mc2Mn2Lo4Mn3LoMc3Lo2Mc7Lo3Mn4LodMnMc2Mn2Mc6MnLoMcNdaMc3MnSo2Lu26Cn",
  "LuCn5LuCn2Ll2bPoLmLl3Lo149CnLo4Cn2Lo7CnLoCnLo4Cn2Lo29CnLo4Cn2Lo21CnLo4Cn2Lo7CnLoCnLo4Cn2Lof",
  "CnLo39CnLo4Cn2Lo43Cn2Mn3Po9No14Cn3Lo10SoaCn6Lu56Cn2Ll6Cn2PdLo26cSoPoLo11ZsLo1aPsPeCn3Lo4bPo3",
  "Nl3Lo8Cn7Lo12Mn3McCn9Lo13Mn2McPo2Cn9Lo12Mn2CncLodCnLo3CnMn2CncLo34Mn2McMn7Mc8MnMc2MnbPo3Lm",
  "Po3ScLoMnCn2NdaCn6NoaCn6Po6PdPo4Mn3CfMnNdaCn6Lo23LmLo35Cn7Lo5Mn2Lo22MnLoCn5Lo46CnaLo1fCnMn3",
  "Mc4Mn2Mc3Cn4Mc2MnMc6Mn3Cn4SoCn3Po2NdaLo1eCn2Lo5CnbLo2cCn4Lo1aCn6NdaNoCn3So22Lo17Mn2Mc2MnCn2",
  "Po2Lo35McMnMcMn7CnMnMcMnMc2Mn8Mc6MnaCn2MnNdaCn6NdaCn6Po7LmPo6Cn2MneMeMn1fCn2MncCn14Mn4McLo2f",
  "MnMcMn5McMnMc5MnMc2Lo8CnPo2NdaPo7SoaMn9So9Po3Mn2McLo1eMcMn4Mc2Mn2McMn3Lo2NdaLo2cMnMcMn2Mc3Mn",
  "McMn3Mc2Cn8Po4Lo24Mc8Mn8Mc2Mn2Cn3Po5NdaCn3Lo3NdaLo1eLm6Po2Ll9LuLlCn5Lu2bCn2Lu3Po8Cn8Mn3PoMnd",
  "McMn7Lo4MnLo6MnLo2McMn2LoCn5Ll2cLm3fLldLmLl22Lm25Mn40Lull4aLuLl9Lull30LuLl9Lu8Ll6Cn2Lu6Cn2",
  "Ll8Lu8Ll8Lu8Ll6Cn2Lu6Cn2Ll8Cnlu4Ll8Lu8LleCn2Ll8Lt8Ll8Lt8Ll8Lt8Ll5CnLl2Lu4LtSkLlSk3Ll3CnLl2",
  "Lu4LtSk3Ll4Cn2Ll2Lu4CnSk3Ll8Lu5Sk3Cn2Ll3CnLl2Lu4LtSk2CnZsbCf5Pd6Po2PiPfPsPi2PfPsPiPo8ZlZpCf5",
  "ZsPo9PiPfPo4Pc2Po3SmPsPePobSmPoPcPoaZsCf5CnCfaNoLmCn2No6Sm3PsPeLmNoaSm3PsPeCnLmdCn3Sc22Cne",
  "MndMe4MnMe3MncCnfSo2LuSo4LuSo2LlLu3Ll2Lu3LlSoLuSo2SmLu5So6Luso3Lu4SoLlLu4LlLo4LlSo2Ll2Lu2Sm5",
  "LuLl4SoSmSo2LlSoNo10Nl23LuLlNl4NoSo2Cn4Sm5So5Sm2So4SmSo2SmSo2SmSo7SmSo1fSm2So2SmSoSmSo1f",
  "Sm10cSo8Pspe2So14Sm2So7PsPeSo51SmSo1eSm19So28Sm6So48Cn16SobCn15No3cSo4eNo16Sob7SmSo9SmSo36",
  "Sm8So6fSmSof8Pspe7No1eSo2cSm5PsPeSm1fPspe5Sm10So100Sm83PspebSm3fPspe2Sm20PsPeSm102So30Sm15",
  "So2Sm6So27Cn2So8aLu30Ll30LuLlLu3Ll2Lull3Lu4LlLuLl2LuLl6Lm2Lu3Lllu31Ll2So6Lull2Mn3LuLlCn5Po4",
  "NoPo2Ll26CnLlCn5LlCn2Lo38Cn7LmPoCneMnLo17Cn9Lo7CnLo7CnLo7CnLo7CnLo7CnLo7CnLo7CnLo7CnMn20Po2",
  "Pipf2Po3PiPfPoPiPfPo9PdPo2PdPoPiPfPo2PiPfPspe4Po5LmPoaPd2Po4PdPoPsPodSo2Po3Pspe4PdCn22So1aCn",
  "So59CncSod6Cn1aSo10ZsPo3SoLmLoNlPspe5So2Pspe4PdPsPe2SoNl9Mn4Mc2PdLm5So2Nl3LmLoPoSo2CnLo56Cn2",
  "Mn2Sk2Lm2LoPdLo5aPoLm3LoCn5Lo2bCnLo5eCnSo2No4SoaLo20So26Cn9SoLo10So1fCnNoaSo1eNo8SoNofSo20",
  "NoaSo27NofSo140Lo19c0So40Lo5215LmLo477Cn3So37Cn9Lo28Lm6Po2Lo10cLmPo3Lo10NdaLo2Cn14Lull17LoMn",
  "Me3PoMnaPoLmLulleLm2Mn2Lo46NlaMn2Po6Cn8Sk17Lm9Sk2Lull6LuLl3Lull1fLmLl8Lull2Lu2Lllu4LlLmSk2",
  "Lull2LoLuLlLuLl3LullaLu5LlLu5Lllu7LlLu4LlLuLlLu2Lllu8Cn14Lm4LuLlLoLm2LlLo7MnLo3MnLo4MnLo17",
  "Mc2Mn2McSo4MnCn3No6So2ScSoCn6Lo34Po4Cn8Mc2Lo32Mc10Mn2Cn8Po2NdaCn6Mn12Lo6Po3LoPoLo2MnNdaLo1c",
  "Mn8Po2Lo17MnbMc2CnbPoLo1dCn3Mn3McLo2fMnMc2Mn4Mc2Mn2Mc3PodCnLmNdaCn4Po2Lo5MnLmLo9NdaLo5CnLo29",
  "Mn6Mc2Mn2Mc2Mn2Cn9Lo3MnLo8MnMcCn2NdaCn2Po4Lo10LmLo6So3LoMcMnMcLo32MnLoMn3Lo2Mn2Lo5Mn2LoMnLo",
  "Cn18Lo2LmPo2LobMcMn2Mc2Po2LoLm2McMnCnaLo6Cn2Lo6Cn2Lo6Cn9Lo7CnLo7CnLl2bSkLm4Ll9LmSk2Cn4Ll50",
  "Lo23Mc2MnMc2MnMc2PoMcMnCn2NdaCn6Lo2ba4CncLo17Cn4Lo31Cn4Cs800Co1900Lo16eCn2Lo6aCn26Ll7CncLl5",
  "Cn5LoMnLoaSmLodCnLo5CnLoCnLo2CnLo2CnLo6cSk11So10Lo16bPePsSo10Lo40So2Lo36So8Cn20LocScSo3Mn10",
  "Po7PsPePoCn6Mn10PoPd2Pc2Pspe8Po2PsPePo4Pc3Po3CnPo4PdPspe3Po3SmPdSm3CnPoScPo2Cn4Lo5CnLo87Cn2",
  "CfCnPo3ScPo3PsPePoSmPoPdPo2NdaPo2Sm3Po2Lu1aPsPoPeSkPcSkLl1aPsSmPeSmPsPePoPsPePo2LoaLmLo2dLm2",
  "Lo1fCn3Lo6Cn2Lo6Cn2Lo6Cn2Lo3Cn3Sc2SmSkSoSc2CnSoSm4So2CnaCf3So2Cn2LocCnLo1aCnLo13CnLo2CnLof",
  "Cn2LoeCn22Lo7bCn5Po3Cn4No2dCn3So9Nl35No4So11No2So3CnSodCn3SoCn2fSo2dMnCn82Lo1dCn3Lo31CnfMn",
  "No1bCn4Lo20No4Cn9Lo14NlLo8NlCn5Lo26Mn5Cn5Lo1eCnPoLo24Cn4Lo8PoNl5Cn2aLu28Ll28Lo4eCn2NdaCn6",
  "Lu24Cn4Ll24Cn4Lo28Cn8Lo34CnbPoLubCnLufCnLu7CnLu2CnLlbCnLlfCnLl7CnLl2Cn3Lo34CncLo137Cn9Lo16",
  "CnaLo8Cn18Lm6CnLm2aCnLm9Cn45Lo6Cn2LoCnLo2cCnLo2Cn3LoCn2Lo17CnPoNo8Lo17So2No7Lo1fCn8No9Cn30",
  "Lo13CnLo2Cn5No5Lo16No6Cn3PoLo1aCn5PoLo1aCn26Lo38Cn4No2Lo2No10Cn2No2eLoMn3CnMn2Cn5Mn4Lo4CnLo3",
  "CnLo1dCn2Mn3Cn4MnNo9Cn7Po9Cn7Lo1dNo2PoLo1dNo3Cn20Lo8SoLo1cMn2Cn4No5Po7Cn9Lo36Cn3Po7Lo16Cn2",
  "No8Lo13Cn5No8Lo12Cn7Po4CncNo7Cn50Lo49Cn37Lu33CndLl33Cn7No6Lo24Mn4Cn8NdaCn6NdaLo4LmLoLu16Cn3",
  "Mn5PdLmLl16Cn8Sm2Cnd0No1fCnLo2aCnMn2PdCn2Lo2Cn10Lo3LmLo2Cn8PoSo8Cn21Mn6Lo1dNoaLoCn8Lo16Mnb",
  "No4Po5Cn16Lo12Mn4Po4Cn26Lo15No7Cn14Lo17Cn9McMnMcLo35MnfPo7Cn4No14NdaMnLo2Mn2LoCn9Mn3McLo2d",
  "Mc3Mn4Mc2Mn2Po2CfPo4MnCnaCfCn2Lo19Cn7NdaCn6Mn3Lo24Mn5McMn8CnNdaPo4LoMc2LoCn8Lo23MnPo2LoCn9",
  "Mn2McLo30Mc3Mn9Mc2Lo4Po4Mn4PoMcMnNdaLoPoLoPo3CnNo14CnbLo12CnLo19Mc3Mn3Mc2MnMcMn2Po6MnLo2Mn",
  "Cn3eLo7CnLoCnLo4CnLofCnLoaPoCn6Lo2fMnMc3Mn8Cn5NdaCn6Mn2Mc2CnLo8Cn2Lo2Cn2Lo16CnLo7CnLo2CnLo5",
  "CnMn2LoMc2MnMc4Cn2Mc2Cn2Mc3Cn2LoCn6McCn5Lo5Mc2Cn2Mn7Cn3Mn5CnbLoaCnLoCn2LoCnLo26CnLoMc3Mn6Cn",
  "McCn2McCnMc4CnMc2MnMcMnlo2Po2CnPo2Cn8Mn2Cn1dLo35Mc3Mn8Mc2Mn3McMnLo4Po5NdaPo2CnPoMnLo3Cn1e",
  "Lo30Mc3Mn6McMnMc4Mn2McMn2Lo2PoLoCn8NdaCna6Lo2fMc3Mn4Cn2Mc4Mn2McMn2Po17Lo4Mn2Cn22Lo30Mc3Mn8",
  "Mc2MnMcMn2Po3LoCnbNdaCn6PodCn13Lo2bMnMcMnMc2Mn6McMnLoPoCn6NdaCn6Nd14Cn1cLo1bCn2MnMcMnMc2Mn4",
  "McMn5Cn4NdaNo2Po3SoLo7Cnb9Lo2cMc3Mn9McMn2PoCn64Lu20Ll20NdaNo9CncLo8Cn2LoCn2Lo8CnLo2CnLo18Mc6",
  "CnMc2Cn2Mn2McMnLomc2MnPo3Cn9NdaCn46Lo8Cn2Lo27Mc3Mn4Cn2Mn2Mc4MnLoPoLoMcCn1bLoMnaLo28Mn6McLo",
  "Mn4Po8MnCn8LoMn6Mc2Mn3Lo2eMndMcMn2Po3LoPo5CndLo49Cn7PoaCn56MnMcMn3McMnMcCn58Lo21PoCneNdaCn6",
  "Lo9CnLo25McMn7CnMn6McMnLoPo5CnaNdaNo13Cn3Po2Lo1eCn2Mn16CnMcMn7McMn2McMn2Cn49Lo7CnLo2CnLo26",
  "Mn6Cn3MnCnMn2CnMn7LoMnCn8NdaCn6Lo6CnLo2CnLo20Mc5CnMn2CnMc2MnMcMnLoCn7NdaCn6Lo29LmLo2Cn4Nda",
  "Cnf6Lo13Mn2Mc2Po2Cn7Mn2LoMcLodCnLo22Mc2Mn5Cn3Mc2MnMcMnPodNdaMnCn55LoCnfNo15So8Sc4So11CndPo",
  "Lo39aCn66Nl6fCnPo5CnbLoc4Cna4cLo61Po2CndLo430Cf10MnLo6MnfCnaLof9bCn5Lo247Cn1ab9Lo1eMncMc3Mn3",
  "NdaCn6c6Lo239Cn7Lo1fCnNdaCn4Po2Lo4fCnNdaCn6Lo1eCn2Mn5PoCnaLo30Mn7Po5So4Lm4PoSoCnaNdaCnNo7Cn",
  "Lo15Cn5Lo13Cn1b0Lm3Lo28Lm2Po3NdaCnc6Lu20Ll20No17Po4Cn5Lu19Cn2Ll19Cn2cLo4bCn4MnLoMc37Cn7Mn4",
  "LmdCn40Lm2PoLmMnCnbMc2Lm2Nl3Cn9Lo1cd6Cn29Lo20Cn61Lo73Cn21fdLm4CnLm7CnLm2CnLo123CnfLoCn1dLo3",
  "Cn2LoCneLo4Cn8Lo18cCn904Lo6bCn5LodCn3Lo9Cn7LoaCn2SoMn2PoCf4Cnf5cSof0NdaSo3Cn3So1b4Cn6So17Cnf",
  "So10SmCnfMn2eCn2Mn17Cn9So74Cn3cSof6CnaSo27Cn2So3cMc2Mn3So3Mc6Cf8Mn8So2Mn7So1eMn4So3dCn15So42",
  "Mn3SoCn7aNo14CncNo14CncSo57Cn9No19Cn87Lu1aLl1aLu1aLl7CnLl12Lu1aLl1aLuCnLu2Cn2LuCn2Lu2Cn2Lu4",
  "CnLu8Ll4CnLlCnLl7CnLlbLu1aLl1aLu2CnLu4Cn2Lu8CnLu7CnLl1aLu2CnLu4CnLu5CnLuCn3Lu7CnLl1aLu1aLl1a",
  "Lu1aLl1aLu1aLl1aLu1aLl1aLu1aLl1aLu1aLl1cCn2Lu19SmLl19SmLl6Lu19SmLl19SmLl6Lu19SmLl19SmLl6Lu19",
  "SmLl19SmLl6Lu19SmLl19SmLl6LuLlCn2Nd32So200Mn37So4Mn32So8MnSoeMnSo2Po5CnfMn5CnMnfCn450LlaLo",
  "Ll14Cn6Ll6Cnd5Mn7CnMn11Cn2Mn7CnMn2CnMn5Cn5Lm3eCn21MnCn70Lo2dCn3Mn7Lm7Cn2NdaCn4LoSoCn140Lo1e",
  "MnCn11Lo2cMn4NdaCn5ScCn1d0Lo1bLmMn4NdaCnd6Lo1eMn2LoNdaCn4PoCnc0Lo1fCnLo3MnLo2MnLo7Mn2Lo5Mn",
  "Cn8LoLmCne0Lo7CnLo4CnLo2CnLofCnLoc5Cn2No9Mn7Cn29Lu22Ll22Mn7LmCn4NdaCn4Po2Cn311No3bSoNo3ScNo4",
  "Cn4cNo2dSoNofCnc2Lo4CnLo1bCnLo2CnLoCn2LoCnLoaCnLo4Cnlo2Cn6LoCn4LoCnLoCnLoCnLo3CnLo2CnLoCn2Lo",
  "CnLoCnLoCnLoCnLoCnLo2CnLoCn2Lo4CnLo7CnLo4CnLo4CnLoCnLoaCnLo11Cn5Lo3CnLo5CnLo11Cn34Sm2Cn10e",
  "So2cCn4So64CncSofCn2SofCnSofCnSo25CnaNodSoa1Cn38So1dCndSo2cCn4So9Cn7So2CneSo6Cn9aSofbSk5",
  "So2d9Cn3So11Cn3SodCn3SodaCn6SocCn4SoCnfSocCn4So38Cn8SoaCn6So28Cn8So1eCn2SocCn4So2CneSm9Cn27",
  "So158Cn8SoeCn2SodCn3SobCn3So39CnSoCn4So10Cn2SocCn4SoaCn7So93CnSo5cNdaSoCn405Loa6e0Cn20Lo111e",
  "Cn2Lo168eCn2Lo1d31CnfLo26eCn9a2Lo21eCn5e2Lo134bCn5Lo212aCnacb87CfCn1eCf60Cn80Mnf0Cnfe10",
  "CofffeCn2CofffeCn2"]

def categoryRuns : List Run :=
  runs categoryLines

def categoryOf (c : Char) : String :=
  ((categoryRuns.find? fun r => r.first ≤ c.toNat && c.toNat ≤ r.last).map (·.label)).getD "Cn"

def isLetter (c : Char) : Bool :=
  ["Ll", "Lm", "Lo", "Lt", "Lu"].contains (categoryOf c)

def isDecimal (c : Char) : Bool :=
  categoryOf c == "Nd"

def categoryGroups : List (String × List String) := [
  ("C", ["Cc", "Cf", "Cn", "Co", "Cs"]),
  ("L", ["Ll", "Lm", "Lo", "Lt", "Lu"]),
  ("M", ["Mc", "Me", "Mn"]),
  ("N", ["Nd", "Nl", "No"]),
  ("P", ["Pc", "Pd", "Pe", "Pf", "Pi", "Po", "Ps"]),
  ("S", ["Sc", "Sk", "Sm", "So"]),
  ("Z", ["Zl", "Zp", "Zs"])]

def categoryMembers : List (String × List String) :=
  ("LC", ["Ll", "Lt", "Lu"]) :: categoryGroups ++
    (categoryGroups.flatMap (·.2)).map fun label => (label, [label])

def categoryAliases : List (String × String) := [
  ("Other", "C"), ("Control", "Cc"), ("cntrl", "Cc"), ("Format", "Cf"), ("Unassigned", "Cn"),
  ("Private_Use", "Co"), ("Surrogate", "Cs"), ("Letter", "L"), ("Cased_Letter", "LC"),
  ("Lowercase_Letter", "Ll"), ("Modifier_Letter", "Lm"), ("Other_Letter", "Lo"),
  ("Titlecase_Letter", "Lt"), ("Uppercase_Letter", "Lu"), ("Mark", "M"), ("Combining_Mark", "M"),
  ("Spacing_Mark", "Mc"), ("Enclosing_Mark", "Me"), ("Nonspacing_Mark", "Mn"), ("Number", "N"),
  ("Decimal_Number", "Nd"), ("digit", "Nd"), ("Letter_Number", "Nl"), ("Other_Number", "No"),
  ("Punctuation", "P"), ("punct", "P"), ("Connector_Punctuation", "Pc"), ("Dash_Punctuation", "Pd"),
  ("Close_Punctuation", "Pe"), ("Final_Punctuation", "Pf"), ("Initial_Punctuation", "Pi"),
  ("Other_Punctuation", "Po"), ("Open_Punctuation", "Ps"), ("Symbol", "S"),
  ("Currency_Symbol", "Sc"), ("Modifier_Symbol", "Sk"), ("Math_Symbol", "Sm"), ("Other_Symbol", "So"),
  ("Separator", "Z"), ("Line_Separator", "Zl"), ("Paragraph_Separator", "Zp"),
  ("Space_Separator", "Zs")]

end ExtensionLowering.Unicode
