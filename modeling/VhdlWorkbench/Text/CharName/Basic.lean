import VhdlWorkbench.Text.CodeRange

/-!
Tables of character names. A name is written as a mark and the rest of the name: the mark is a small letter, `a` for a
name that is written in full, `b` for one that begins with the first word of the name before it, and so on. A plus
sign is the name before it with its number counted up, and a full stop is a code point without a name. The tables hold
the first 256 characters.
-/

namespace VhdlWorkbench.Text

/-- A character that begins the entry of a code point. -/
def isEntryMark (c : Char) : Bool :=
  ('a' ≤ c && c ≤ 'l') || c == '+' || c == '.'

/-- The parts of a line: what stands before the first mark, and each mark with the characters up to the
next one. -/
def markedParts (line : List Char) : List Char × List (Char × List Char) :=
  line.foldr (fun c (rest, parts) => if isEntryMark c then ([], (c, rest) :: parts) else (c :: rest, parts)) ([], [])

def firstWords : Nat → List Char → List Char
  | 0, _ => []
  | _, [] => []
  | n + 1, c :: rest =>
    c :: if c == ' ' || c == '-' then firstWords n rest else firstWords (n + 1) rest

/-- The digits of a number from the last to the first, counted up by one. -/
def countUp : List Char → List Char
  | [] => []
  | c :: rest => if c == '9' then '0' :: countUp rest else Char.ofNat (c.toNat + 1) :: rest

/-- The names that entries stand for, with their code points; `last` is the name before them. -/
def spellNames : Nat → List Char → List (Char × List Char) → List (List Char × Nat)
  | _, _, [] => []
  | code, last, (mark, rest) :: entries =>
    if mark == '.' then spellNames (code + 1) last entries
    else
      let name :=
        if mark == '+' then (countUp last.reverse).reverse
        else firstWords (mark.toNat - 97) last ++ rest
      (name, code) :: spellNames (code + 1) name entries

def capitalHex? (cs : List Char) : Option Nat :=
  cs.foldlM (fun n c =>
    if c.isDigit then some (n * 16 + (c.toNat - 48))
    else if 'A' ≤ c && c ≤ 'F' then some (n * 16 + (c.toNat - 55))
    else none) 0

def nameInLine? (name line : List Char) : Option Nat := do
  let (first, entries) := markedParts line
  (spellNames (← capitalHex? first) [] entries).lookup name

def nameLines : List String :=
  ["20aSPACEaEXCLAMATION MARKaQUOTATION MARKaNUMBER SIGNaDOLLAR SIGNaPERCENT SIGNaAMPERSANDaAPOSTROPHEaLEFT PARENTHE" ++
    "SISaRIGHT PARENTHESISaASTERISKaPLUS SIGNaCOMMAaHYPHEN-MINUSaFULL STOPaSOLIDUSaDIGIT ZERObONEbTWObTHREEbFOURbFIVE" ++
    "bSIXbSEVENbEIGHTbNINEaCOLONaSEMICOLONaLESS-THAN SIGNaEQUALS SIGNaGREATER-THAN SIGNaQUESTION MARKaCOMMERCIAL ATaL" ++
    "ATIN CAPITAL LETTER A+++++++++++++++++++++++++aLEFT SQUARE BRACKETaREVERSE SOLIDUSaRIGHT SQUARE BRACKETaCIRCUMFL" ++
    "EX ACCENTaLOW LINEaGRAVE ACCENTaLATIN SMALL LETTER A+++++++++++++++++++++++++aLEFT CURLY BRACKETaVERTICAL LINEaR" ++
    "IGHT CURLY BRACKETaTILDE",
   "A0aNO-BREAK SPACEaINVERTED EXCLAMATION MARKaCENT SIGNaPOUND SIGNaCURRENCY SIGNaYEN SIGNaBROKEN BARaSECTION SIGNa" ++
    "DIAERESISaCOPYRIGHT SIGNaFEMININE ORDINAL INDICATORaLEFT-POINTING DOUBLE ANGLE QUOTATION MARKaNOT SIGNaSOFT HYPH" ++
    "ENaREGISTERED SIGNaMACRONaDEGREE SIGNaPLUS-MINUS SIGNaSUPERSCRIPT TWObTHREEaACUTE ACCENTaMICRO SIGNaPILCROW SIGN" ++
    "aMIDDLE DOTaCEDILLAaSUPERSCRIPT ONEaMASCULINE ORDINAL INDICATORaRIGHT-POINTING DOUBLE ANGLE QUOTATION MARKaVULGA" ++
    "R FRACTION ONE QUARTERdHALFcTHREE QUARTERSaINVERTED QUESTION MARKaLATIN CAPITAL LETTER A WITH GRAVEfACUTEfCIRCUM" ++
    "FLEXfTILDEfDIAERESISfRING ABOVEdAEdC WITH CEDILLAdE WITH GRAVEfACUTEfCIRCUMFLEXfDIAERESISdI WITH GRAVEfACUTEfCIR" ++
    "CUMFLEXfDIAERESISdETHdN WITH TILDEdO WITH GRAVEfACUTEfCIRCUMFLEXfTILDEfDIAERESISaMULTIPLICATION SIGNaLATIN CAPIT" ++
    "AL LETTER O WITH STROKEdU WITH GRAVEfACUTEfCIRCUMFLEXfDIAERESISdY WITH ACUTEdTHORNbSMALL LETTER SHARP SdA WITH G" ++
    "RAVEfACUTEfCIRCUMFLEXfTILDEfDIAERESISfRING ABOVEdAEdC WITH CEDILLAdE WITH GRAVEfACUTEfCIRCUMFLEXfDIAERESISdI WIT" ++
    "H GRAVEfACUTEfCIRCUMFLEXfDIAERESISdETHdN WITH TILDEdO WITH GRAVEfACUTEfCIRCUMFLEXfTILDEfDIAERESISaDIVISION SIGNa" ++
    "LATIN SMALL LETTER O WITH STROKEdU WITH GRAVEfACUTEfCIRCUMFLEXfDIAERESISdY WITH ACUTEdTHORNdY WITH DIAERESIS",
   "0aNULLaSTART OF HEADINGcTEXTaEND OF TEXTcTRANSMISSIONaENQUIRYaACKNOWLEDGEaALERTaBACKSPACEaHORIZONTAL TABULATIONa" ++
    "END OF LINEaVERTICAL TABULATIONaFORM FEEDaCARRIAGE RETURNaLOCKING-SHIFT ONEcZEROaDATA LINK ESCAPEaDEVICE CONTROL" ++
    " ONEcTWOcTHREEcFOURaNEGATIVE ACKNOWLEDGEaSYNCHRONOUS IDLEaEND OF TRANSMISSION BLOCKaCANCELaEND OF MEDIUMaSUBSTIT" ++
    "UTEaESCAPEaINFORMATION SEPARATOR FOURcTHREEcTWOcONEaSP",
   "7FaDELETEaPADDING CHARACTERaHIGH OCTET PRESETaBREAK PERMITTED HEREaNO BREAK HEREaINDEXaNEXT LINEaSTART OF SELECT" ++
    "ED AREAaEND OF SELECTED AREAaHORIZONTAL TABULATION SETcWITH JUSTIFICATIONaVERTICAL TABULATION SETaPARTIAL LINE F" ++
    "ORWARDcBACKWARDaREVERSE LINE FEEDaSINGLE SHIFT TWOcTHREEaDEVICE CONTROL STRINGaPRIVATE USE ONEcTWOaSET TRANSMIT " ++
    "STATEaCANCEL CHARACTERaMESSAGE WAITINGaSTART OF PROTECTED AREAaEND OF PROTECTED AREAaSTART OF STRINGaSINGLE GRAP" ++
    "HIC CHARACTER INTRODUCERbCHARACTER INTRODUCERaCONTROL SEQUENCE INTRODUCERaSTRING TERMINATORaOPERATING SYSTEM COM" ++
    "MANDaPRIVACY MESSAGEaAPPLICATION PROGRAM COMMANDaNBSP",
   "ADaSHY",
   "0aNULaSOHaSTXaETXaEOTaENQaACKaBELaBSaCHARACTER TABULATIONaLINE FEEDbTABULATIONaFFaCRaSHIFT OUTbINaDLEaDC1+++aNAK" ++
    "aSYNaETBaCANaEOMaSUBaESCaFILE SEPARATORaGROUP SEPARATORaRECORD SEPARATORaUNIT SEPARATOR",
   "7FaDELaPADaHOPaBPHaNBHaINDaNELaSSAaESAaCHARACTER TABULATION SETcWITH JUSTIFICATIONaLINE TABULATION SETaPARTIAL L" ++
    "INE DOWNcUPaREVERSE INDEXaSINGLE-SHIFT-2+aDCSaPRIVATE USE-1+aSTSaCCHaMWaSTART OF GUARDED AREAaEND OF GUARDED ARE" ++
    "AaSOSaSGCaSCIaCSIaSTaOSCaPMaAPC",
   "9aTABaNEW LINEaVT..aSOaSI",
   "1CaFSaGSaRSaUS",
   "88aHTSaHTJaVTSaPLDaPLUaRIaSS2+.aPU1+...aSPAaEPA",
   "9aHTaEOL",
   "AaLF",
   "AaNL"]

def tabledCharacter? (name : List Char) : Option Nat :=
  nameLines.findSome? fun line => nameInLine? name line.toList

end VhdlWorkbench.Text
