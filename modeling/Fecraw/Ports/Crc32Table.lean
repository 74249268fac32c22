import Fecraw.Verified.Crc

/-!
# The lookup table of `Crc32.cpp`

`Crc32Lookup`, with its sixteen slices.  Slice `k` has what each octet leaves in
the register after itself and `k` zeros.
-/

namespace Fecraw.Ports.Crc32

open Fecraw.Verified

/-- `Polynomial`. -/
def polynomial : UInt32 := 0xEDB88320

/-! ## The table of the source -/

/-- `Crc32Lookup[0]`. -/
def slice0 : List Nat :=
  [ 0x00000000_77073096_EE0E612C_990951BA_076DC419_706AF48F_E963A535_9E6495A3,
    0x0EDB8832_79DCB8A4_E0D5E91E_97D2D988_09B64C2B_7EB17CBD_E7B82D07_90BF1D91,
    0x1DB71064_6AB020F2_F3B97148_84BE41DE_1ADAD47D_6DDDE4EB_F4D4B551_83D385C7,
    0x136C9856_646BA8C0_FD62F97A_8A65C9EC_14015C4F_63066CD9_FA0F3D63_8D080DF5,
    0x3B6E20C8_4C69105E_D56041E4_A2677172_3C03E4D1_4B04D447_D20D85FD_A50AB56B,
    0x35B5A8FA_42B2986C_DBBBC9D6_ACBCF940_32D86CE3_45DF5C75_DCD60DCF_ABD13D59,
    0x26D930AC_51DE003A_C8D75180_BFD06116_21B4F4B5_56B3C423_CFBA9599_B8BDA50F,
    0x2802B89E_5F058808_C60CD9B2_B10BE924_2F6F7C87_58684C11_C1611DAB_B6662D3D,
    0x76DC4190_01DB7106_98D220BC_EFD5102A_71B18589_06B6B51F_9FBFE4A5_E8B8D433,
    0x7807C9A2_0F00F934_9609A88E_E10E9818_7F6A0DBB_086D3D2D_91646C97_E6635C01,
    0x6B6B51F4_1C6C6162_856530D8_F262004E_6C0695ED_1B01A57B_8208F4C1_F50FC457,
    0x65B0D9C6_12B7E950_8BBEB8EA_FCB9887C_62DD1DDF_15DA2D49_8CD37CF3_FBD44C65,
    0x4DB26158_3AB551CE_A3BC0074_D4BB30E2_4ADFA541_3DD895D7_A4D1C46D_D3D6F4FB,
    0x4369E96A_346ED9FC_AD678846_DA60B8D0_44042D73_33031DE5_AA0A4C5F_DD0D7CC9,
    0x5005713C_270241AA_BE0B1010_C90C2086_5768B525_206F85B3_B966D409_CE61E49F,
    0x5EDEF90E_29D9C998_B0D09822_C7D7A8B4_59B33D17_2EB40D81_B7BD5C3B_C0BA6CAD,
    0xEDB88320_9ABFB3B6_03B6E20C_74B1D29A_EAD54739_9DD277AF_04DB2615_73DC1683,
    0xE3630B12_94643B84_0D6D6A3E_7A6A5AA8_E40ECF0B_9309FF9D_0A00AE27_7D079EB1,
    0xF00F9344_8708A3D2_1E01F268_6906C2FE_F762575D_806567CB_196C3671_6E6B06E7,
    0xFED41B76_89D32BE0_10DA7A5A_67DD4ACC_F9B9DF6F_8EBEEFF9_17B7BE43_60B08ED5,
    0xD6D6A3E8_A1D1937E_38D8C2C4_4FDFF252_D1BB67F1_A6BC5767_3FB506DD_48B2364B,
    0xD80D2BDA_AF0A1B4C_36034AF6_41047A60_DF60EFC3_A867DF55_316E8EEF_4669BE79,
    0xCB61B38C_BC66831A_256FD2A0_5268E236_CC0C7795_BB0B4703_220216B9_5505262F,
    0xC5BA3BBE_B2BD0B28_2BB45A92_5CB36A04_C2D7FFA7_B5D0CF31_2CD99E8B_5BDEAE1D,
    0x9B64C2B0_EC63F226_756AA39C_026D930A_9C0906A9_EB0E363F_72076785_05005713,
    0x95BF4A82_E2B87A14_7BB12BAE_0CB61B38_92D28E9B_E5D5BE0D_7CDCEFB7_0BDBDF21,
    0x86D3D2D4_F1D4E242_68DDB3F8_1FDA836E_81BE16CD_F6B9265B_6FB077E1_18B74777,
    0x88085AE6_FF0F6A70_66063BCA_11010B5C_8F659EFF_F862AE69_616BFFD3_166CCF45,
    0xA00AE278_D70DD2EE_4E048354_3903B3C2_A7672661_D06016F7_4969474D_3E6E77DB,
    0xAED16A4A_D9D65ADC_40DF0B66_37D83BF0_A9BCAE53_DEBB9EC5_47B2CF7F_30B5FFE9,
    0xBDBDF21C_CABAC28A_53B39330_24B4A3A6_BAD03605_CDD70693_54DE5729_23D967BF,
    0xB3667A2E_C4614AB8_5D681B02_2A6F2B94_B40BBE37_C30C8EA1_5A05DF1B_2D02EF8D ]

/-- `Crc32Lookup[1]`. -/
def slice1 : List Nat :=
  [ 0x00000000_191B3141_32366282_2B2D53C3_646CC504_7D77F445_565AA786_4F4196C7,
    0xC8D98A08_D1C2BB49_FAEFE88A_E3F4D9CB_ACB54F0C_B5AE7E4D_9E832D8E_87981CCF,
    0x4AC21251_53D92310_78F470D3_61EF4192_2EAED755_37B5E614_1C98B5D7_05838496,
    0x821B9859_9B00A918_B02DFADB_A936CB9A_E6775D5D_FF6C6C1C_D4413FDF_CD5A0E9E,
    0x958424A2_8C9F15E3_A7B24620_BEA97761_F1E8E1A6_E8F3D0E7_C3DE8324_DAC5B265,
    0x5D5DAEAA_44469FEB_6F6BCC28_7670FD69_39316BAE_202A5AEF_0B07092C_121C386D,
    0xDF4636F3_C65D07B2_ED705471_F46B6530_BB2AF3F7_A231C2B6_891C9175_9007A034,
    0x179FBCFB_0E848DBA_25A9DE79_3CB2EF38_73F379FF_6AE848BE_41C51B7D_58DE2A3C,
    0xF0794F05_E9627E44_C24F2D87_DB541CC6_94158A01_8D0EBB40_A623E883_BF38D9C2,
    0x38A0C50D_21BBF44C_0A96A78F_138D96CE_5CCC0009_45D73148_6EFA628B_77E153CA,
    0xBABB5D54_A3A06C15_888D3FD6_91960E97_DED79850_C7CCA911_ECE1FAD2_F5FACB93,
    0x7262D75C_6B79E61D_4054B5DE_594F849F_160E1258_0F152319_243870DA_3D23419B,
    0x65FD6BA7_7CE65AE6_57CB0925_4ED03864_0191AEA3_188A9FE2_33A7CC21_2ABCFD60,
    0xAD24E1AF_B43FD0EE_9F12832D_8609B26C_C94824AB_D05315EA_FB7E4629_E2657768,
    0x2F3F79F6_362448B7_1D091B74_04122A35_4B53BCF2_52488DB3_7965DE70_607EEF31,
    0xE7E6F3FE_FEFDC2BF_D5D0917C_CCCBA03D_838A36FA_9A9107BB_B1BC5478_A8A76539,
    0x3B83984B_2298A90A_09B5FAC9_10AECB88_5FEF5D4F_46F46C0E_6DD93FCD_74C20E8C,
    0xF35A1243_EA412302_C16C70C1_D8774180_9736D747_8E2DE606_A500B5C5_BC1B8484,
    0x71418A1A_685ABB5B_4377E898_5A6CD9D9_152D4F1E_0C367E5F_271B2D9C_3E001CDD,
    0xB9980012_A0833153_8BAE6290_92B553D1_DDF4C516_C4EFF457_EFC2A794_F6D996D5,
    0xAE07BCE9_B71C8DA8_9C31DE6B_852AEF2A_CA6B79ED_D37048AC_F85D1B6F_E1462A2E,
    0x66DE36E1_7FC507A0_54E85463_4DF36522_02B2F3E5_1BA9C2A4_30849167_299FA026,
    0xE4C5AEB8_FDDE9FF9_D6F3CC3A_CFE8FD7B_80A96BBC_99B25AFD_B29F093E_AB84387F,
    0x2C1C24B0_350715F1_1E2A4632_07317773_4870E1B4_516BD0F5_7A468336_635DB277,
    0xCBFAD74E_D2E1E60F_F9CCB5CC_E0D7848D_AF96124A_B68D230B_9DA070C8_84BB4189,
    0x03235D46_1A386C07_31153FC4_280E0E85_674F9842_7E54A903_5579FAC0_4C62CB81,
    0x8138C51F_9823F45E_B30EA79D_AA1596DC_E554001B_FC4F315A_D7626299_CE7953D8,
    0x49E14F17_50FA7E56_7BD72D95_62CC1CD4_2D8D8A13_3496BB52_1FBBE891_06A0D9D0,
    0x5E7EF3EC_4765C2AD_6C48916E_7553A02F_3A1236E8_230907A9_0824546A_113F652B,
    0x96A779E4_8FBC48A5_A4911B66_BD8A2A27_F2CBBCE0_EBD08DA1_C0FDDE62_D9E6EF23,
    0x14BCE1BD_0DA7D0FC_268A833F_3F91B27E_70D024B9_69CB15F8_42E6463B_5BFD777A,
    0xDC656BB5_C57E5AF4_EE530937_F7483876_B809AEB1_A1129FF0_8A3FCC33_9324FD72 ]

/-- `Crc32Lookup[2]`. -/
def slice2 : List Nat :=
  [ 0x00000000_01C26A37_0384D46E_0246BE59_0709A8DC_06CBC2EB_048D7CB2_054F1685,
    0x0E1351B8_0FD13B8F_0D9785D6_0C55EFE1_091AF964_08D89353_0A9E2D0A_0B5C473D,
    0x1C26A370_1DE4C947_1FA2771E_1E601D29_1B2F0BAC_1AED619B_18ABDFC2_1969B5F5,
    0x1235F2C8_13F798FF_11B126A6_10734C91_153C5A14_14FE3023_16B88E7A_177AE44D,
    0x384D46E0_398F2CD7_3BC9928E_3A0BF8B9_3F44EE3C_3E86840B_3CC03A52_3D025065,
    0x365E1758_379C7D6F_35DAC336_3418A901_3157BF84_3095D5B3_32D36BEA_331101DD,
    0x246BE590_25A98FA7_27EF31FE_262D5BC9_23624D4C_22A0277B_20E69922_2124F315,
    0x2A78B428_2BBADE1F_29FC6046_283E0A71_2D711CF4_2CB376C3_2EF5C89A_2F37A2AD,
    0x709A8DC0_7158E7F7_731E59AE_72DC3399_7793251C_76514F2B_7417F172_75D59B45,
    0x7E89DC78_7F4BB64F_7D0D0816_7CCF6221_798074A4_78421E93_7A04A0CA_7BC6CAFD,
    0x6CBC2EB0_6D7E4487_6F38FADE_6EFA90E9_6BB5866C_6A77EC5B_68315202_69F33835,
    0x62AF7F08_636D153F_612BAB66_60E9C151_65A6D7D4_6464BDE3_662203BA_67E0698D,
    0x48D7CB20_4915A117_4B531F4E_4A917579_4FDE63FC_4E1C09CB_4C5AB792_4D98DDA5,
    0x46C49A98_4706F0AF_45404EF6_448224C1_41CD3244_400F5873_4249E62A_438B8C1D,
    0x54F16850_55330267_5775BC3E_56B7D609_53F8C08C_523AAABB_507C14E2_51BE7ED5,
    0x5AE239E8_5B2053DF_5966ED86_58A487B1_5DEB9134_5C29FB03_5E6F455A_5FAD2F6D,
    0xE1351B80_E0F771B7_E2B1CFEE_E373A5D9_E63CB35C_E7FED96B_E5B86732_E47A0D05,
    0xEF264A38_EEE4200F_ECA29E56_ED60F461_E82FE2E4_E9ED88D3_EBAB368A_EA695CBD,
    0xFD13B8F0_FCD1D2C7_FE976C9E_FF5506A9_FA1A102C_FBD87A1B_F99EC442_F85CAE75,
    0xF300E948_F2C2837F_F0843D26_F1465711_F4094194_F5CB2BA3_F78D95FA_F64FFFCD,
    0xD9785D60_D8BA3757_DAFC890E_DB3EE339_DE71F5BC_DFB39F8B_DDF521D2_DC374BE5,
    0xD76B0CD8_D6A966EF_D4EFD8B6_D52DB281_D062A404_D1A0CE33_D3E6706A_D2241A5D,
    0xC55EFE10_C49C9427_C6DA2A7E_C7184049_C25756CC_C3953CFB_C1D382A2_C011E895,
    0xCB4DAFA8_CA8FC59F_C8C97BC6_C90B11F1_CC440774_CD866D43_CFC0D31A_CE02B92D,
    0x91AF9640_906DFC77_922B422E_93E92819_96A63E9C_976454AB_9522EAF2_94E080C5,
    0x9FBCC7F8_9E7EADCF_9C381396_9DFA79A1_98B56F24_99770513_9B31BB4A_9AF3D17D,
    0x8D893530_8C4B5F07_8E0DE15E_8FCF8B69_8A809DEC_8B42F7DB_89044982_88C623B5,
    0x839A6488_82580EBF_801EB0E6_81DCDAD1_8493CC54_8551A663_8717183A_86D5720D,
    0xA9E2D0A0_A820BA97_AA6604CE_ABA46EF9_AEEB787C_AF29124B_AD6FAC12_ACADC625,
    0xA7F18118_A633EB2F_A4755576_A5B73F41_A0F829C4_A13A43F3_A37CFDAA_A2BE979D,
    0xB5C473D0_B40619E7_B640A7BE_B782CD89_B2CDDB0C_B30FB13B_B1490F62_B08B6555,
    0xBBD72268_BA15485F_B853F606_B9919C31_BCDE8AB4_BD1CE083_BF5A5EDA_BE9834ED ]

/-- `Crc32Lookup[3]`. -/
def slice3 : List Nat :=
  [ 0x00000000_B8BC6765_AA09C88B_12B5AFEE_8F629757_37DEF032_256B5FDC_9DD738B9,
    0xC5B428EF_7D084F8A_6FBDE064_D7018701_4AD6BFB8_F26AD8DD_E0DF7733_58631056,
    0x5019579F_E8A530FA_FA109F14_42ACF871_DF7BC0C8_67C7A7AD_75720843_CDCE6F26,
    0x95AD7F70_2D111815_3FA4B7FB_8718D09E_1ACFE827_A2738F42_B0C620AC_087A47C9,
    0xA032AF3E_188EC85B_0A3B67B5_B28700D0_2F503869_97EC5F0C_8559F0E2_3DE59787,
    0x658687D1_DD3AE0B4_CF8F4F5A_7733283F_EAE41086_525877E3_40EDD80D_F851BF68,
    0xF02BF8A1_48979FC4_5A22302A_E29E574F_7F496FF6_C7F50893_D540A77D_6DFCC018,
    0x359FD04E_8D23B72B_9F9618C5_272A7FA0_BAFD4719_0241207C_10F48F92_A848E8F7,
    0x9B14583D_23A83F58_311D90B6_89A1F7D3_1476CF6A_ACCAA80F_BE7F07E1_06C36084,
    0x5EA070D2_E61C17B7_F4A9B859_4C15DF3C_D1C2E785_697E80E0_7BCB2F0E_C377486B,
    0xCB0D0FA2_73B168C7_6104C729_D9B8A04C_446F98F5_FCD3FF90_EE66507E_56DA371B,
    0x0EB9274D_B6054028_A4B0EFC6_1C0C88A3_81DBB01A_3967D77F_2BD27891_936E1FF4,
    0x3B26F703_839A9066_912F3F88_299358ED_B4446054_0CF80731_1E4DA8DF_A6F1CFBA,
    0xFE92DFEC_462EB889_549B1767_EC277002_71F048BB_C94C2FDE_DBF98030_6345E755,
    0x6B3FA09C_D383C7F9_C1366817_798A0F72_E45D37CB_5CE150AE_4E54FF40_F6E89825,
    0xAE8B8873_1637EF16_048240F8_BC3E279D_21E91F24_99557841_8BE0D7AF_335CB0CA,
    0xED59B63B_55E5D15E_47507EB0_FFEC19D5_623B216C_DA874609_C832E9E7_708E8E82,
    0x28ED9ED4_9051F9B1_82E4565F_3A58313A_A78F0983_1F336EE6_0D86C108_B53AA66D,
    0xBD40E1A4_05FC86C1_1749292F_AFF54E4A_322276F3_8A9E1196_982BBE78_2097D91D,
    0x78F4C94B_C048AE2E_D2FD01C0_6A4166A5_F7965E1C_4F2A3979_5D9F9697_E523F1F2,
    0x4D6B1905_F5D77E60_E762D18E_5FDEB6EB_C2098E52_7AB5E937_680046D9_D0BC21BC,
    0x88DF31EA_3063568F_22D6F961_9A6A9E04_07BDA6BD_BF01C1D8_ADB46E36_15080953,
    0x1D724E9A_A5CE29FF_B77B8611_0FC7E174_9210D9CD_2AACBEA8_38191146_80A57623,
    0xD8C66675_607A0110_72CFAEFE_CA73C99B_57A4F122_EF189647_FDAD39A9_45115ECC,
    0x764DEE06_CEF18963_DC44268D_64F841E8_F92F7951_41931E34_5326B1DA_EB9AD6BF,
    0xB3F9C6E9_0B45A18C_19F00E62_A14C6907_3C9B51BE_842736DB_96929935_2E2EFE50,
    0x2654B999_9EE8DEFC_8C5D7112_34E11677_A9362ECE_118A49AB_033FE645_BB838120,
    0xE3E09176_5B5CF613_49E959FD_F1553E98_6C820621_D43E6144_C68BCEAA_7E37A9CF,
    0xD67F4138_6EC3265D_7C7689B3_C4CAEED6_591DD66F_E1A1B10A_F3141EE4_4BA87981,
    0x13CB69D7_AB770EB2_B9C2A15C_017EC639_9CA9FE80_241599E5_36A0360B_8E1C516E,
    0x866616A7_3EDA71C2_2C6FDE2C_94D3B949_090481F0_B1B8E695_A30D497B_1BB12E1E,
    0x43D23E48_FB6E592D_E9DBF6C3_516791A6_CCB0A91F_740CCE7A_66B96194_DE0506F1 ]

/-- `Crc32Lookup[4]`. -/
def slice4 : List Nat :=
  [ 0x00000000_3D6029B0_7AC05360_47A07AD0_F580A6C0_C8E08F70_8F40F5A0_B220DC10,
    0x30704BC1_0D106271_4AB018A1_77D03111_C5F0ED01_F890C4B1_BF30BE61_825097D1,
    0x60E09782_5D80BE32_1A20C4E2_2740ED52_95603142_A80018F2_EFA06222_D2C04B92,
    0x5090DC43_6DF0F5F3_2A508F23_1730A693_A5107A83_98705333_DFD029E3_E2B00053,
    0xC1C12F04_FCA106B4_BB017C64_866155D4_344189C4_0921A074_4E81DAA4_73E1F314,
    0xF1B164C5_CCD14D75_8B7137A5_B6111E15_0431C205_3951EBB5_7EF19165_4391B8D5,
    0xA121B886_9C419136_DBE1EBE6_E681C256_54A11E46_69C137F6_2E614D26_13016496,
    0x9151F347_AC31DAF7_EB91A027_D6F18997_64D15587_59B17C37_1E1106E7_23712F57,
    0x58F35849_659371F9_22330B29_1F532299_AD73FE89_9013D739_D7B3ADE9_EAD38459,
    0x68831388_55E33A38_124340E8_2F236958_9D03B548_A0639CF8_E7C3E628_DAA3CF98,
    0x3813CFCB_0573E67B_42D39CAB_7FB3B51B_CD93690B_F0F340BB_B7533A6B_8A3313DB,
    0x0863840A_3503ADBA_72A3D76A_4FC3FEDA_FDE322CA_C0830B7A_872371AA_BA43581A,
    0x9932774D_A4525EFD_E3F2242D_DE920D9D_6CB2D18D_51D2F83D_167282ED_2B12AB5D,
    0xA9423C8C_9422153C_D3826FEC_EEE2465C_5CC29A4C_61A2B3FC_2602C92C_1B62E09C,
    0xF9D2E0CF_C4B2C97F_8312B3AF_BE729A1F_0C52460F_31326FBF_7692156F_4BF23CDF,
    0xC9A2AB0E_F4C282BE_B362F86E_8E02D1DE_3C220DCE_0142247E_46E25EAE_7B82771E,
    0xB1E6B092_8C869922_CB26E3F2_F646CA42_44661652_79063FE2_3EA64532_03C66C82,
    0x8196FB53_BCF6D2E3_FB56A833_C6368183_74165D93_49767423_0ED60EF3_33B62743,
    0xD1062710_EC660EA0_ABC67470_96A65DC0_248681D0_19E6A860_5E46D2B0_6326FB00,
    0xE1766CD1_DC164561_9BB63FB1_A6D61601_14F6CA11_2996E3A1_6E369971_5356B0C1,
    0x70279F96_4D47B626_0AE7CCF6_3787E546_85A73956_B8C710E6_FF676A36_C2074386,
    0x4057D457_7D37FDE7_3A978737_07F7AE87_B5D77297_88B75B27_CF1721F7_F2770847,
    0x10C70814_2DA721A4_6A075B74_576772C4_E547AED4_D8278764_9F87FDB4_A2E7D404,
    0x20B743D5_1DD76A65_5A7710B5_67173905_D537E515_E857CCA5_AFF7B675_92979FC5,
    0xE915E8DB_D475C16B_93D5BBBB_AEB5920B_1C954E1B_21F567AB_66551D7B_5B3534CB,
    0xD965A31A_E4058AAA_A3A5F07A_9EC5D9CA_2CE505DA_11852C6A_562556BA_6B457F0A,
    0x89F57F59_B49556E9_F3352C39_CE550589_7C75D999_4115F029_06B58AF9_3BD5A349,
    0xB9853498_84E51D28_C34567F8_FE254E48_4C059258_7165BBE8_36C5C138_0BA5E888,
    0x28D4C7DF_15B4EE6F_521494BF_6F74BD0F_DD54611F_E03448AF_A794327F_9AF41BCF,
    0x18A48C1E_25C4A5AE_6264DF7E_5F04F6CE_ED242ADE_D044036E_97E479BE_AA84500E,
    0x4834505D_755479ED_32F4033D_0F942A8D_BDB4F69D_80D4DF2D_C774A5FD_FA148C4D,
    0x78441B9C_4524322C_028448FC_3FE4614C_8DC4BD5C_B0A494EC_F704EE3C_CA64C78C ]

/-- `Crc32Lookup[5]`. -/
def slice5 : List Nat :=
  [ 0x00000000_CB5CD3A5_4DC8A10B_869472AE_9B914216_50CD91B3_D659E31D_1D0530B8,
    0xEC53826D_270F51C8_A19B2366_6AC7F0C3_77C2C07B_BC9E13DE_3A0A6170_F156B2D5,
    0x03D6029B_C88AD13E_4E1EA390_85427035_9847408D_531B9328_D58FE186_1ED33223,
    0xEF8580F6_24D95353_A24D21FD_6911F258_7414C2E0_BF481145_39DC63EB_F280B04E,
    0x07AC0536_CCF0D693_4A64A43D_81387798_9C3D4720_57619485_D1F5E62B_1AA9358E,
    0xEBFF875B_20A354FE_A6372650_6D6BF5F5_706EC54D_BB3216E8_3DA66446_F6FAB7E3,
    0x047A07AD_CF26D408_49B2A6A6_82EE7503_9FEB45BB_54B7961E_D223E4B0_197F3715,
    0xE82985C0_23755665_A5E124CB_6EBDF76E_73B8C7D6_B8E41473_3E7066DD_F52CB578,
    0x0F580A6C_C404D9C9_4290AB67_89CC78C2_94C9487A_5F959BDF_D901E971_125D3AD4,
    0xE30B8801_28575BA4_AEC3290A_659FFAAF_789ACA17_B3C619B2_35526B1C_FE0EB8B9,
    0x0C8E08F7_C7D2DB52_4146A9FC_8A1A7A59_971F4AE1_5C439944_DAD7EBEA_118B384F,
    0xE0DD8A9A_2B81593F_AD152B91_6649F834_7B4CC88C_B0101B29_36846987_FDD8BA22,
    0x08F40F5A_C3A8DCFF_453CAE51_8E607DF4_93654D4C_58399EE9_DEADEC47_15F13FE2,
    0xE4A78D37_2FFB5E92_A96F2C3C_6233FF99_7F36CF21_B46A1C84_32FE6E2A_F9A2BD8F,
    0x0B220DC1_C07EDE64_46EAACCA_8DB67F6F_90B34FD7_5BEF9C72_DD7BEEDC_16273D79,
    0xE7718FAC_2C2D5C09_AAB92EA7_61E5FD02_7CE0CDBA_B7BC1E1F_31286CB1_FA74BF14,
    0x1EB014D8_D5ECC77D_5378B5D3_98246676_852156CE_4E7D856B_C8E9F7C5_03B52460,
    0xF2E396B5_39BF4510_BF2B37BE_7477E41B_6972D4A3_A22E0706_24BA75A8_EFE6A60D,
    0x1D661643_D63AC5E6_50AEB748_9BF264ED_86F75455_4DAB87F0_CB3FF55E_006326FB,
    0xF135942E_3A69478B_BCFD3525_77A1E680_6AA4D638_A1F8059D_276C7733_EC30A496,
    0x191C11EE_D240C24B_54D4B0E5_9F886340_828D53F8_49D1805D_CF45F2F3_04192156,
    0xF54F9383_3E134026_B8873288_73DBE12D_6EDED195_A5820230_2316709E_E84AA33B,
    0x1ACA1375_D196C0D0_5702B27E_9C5E61DB_815B5163_4A0782C6_CC93F068_07CF23CD,
    0xF6999118_3DC542BD_BB513013_700DE3B6_6D08D30E_A65400AB_20C07205_EB9CA1A0,
    0x11E81EB4_DAB4CD11_5C20BFBF_977C6C1A_8A795CA2_41258F07_C7B1FDA9_0CED2E0C,
    0xFDBB9CD9_36E74F7C_B0733DD2_7B2FEE77_662ADECF_AD760D6A_2BE27FC4_E0BEAC61,
    0x123E1C2F_D962CF8A_5FF6BD24_94AA6E81_89AF5E39_42F38D9C_C467FF32_0F3B2C97,
    0xFE6D9E42_35314DE7_B3A53F49_78F9ECEC_65FCDC54_AEA00FF1_28347D5F_E368AEFA,
    0x16441B82_DD18C827_5B8CBA89_90D0692C_8DD55994_46898A31_C01DF89F_0B412B3A,
    0xFA1799EF_314B4A4A_B7DF38E4_7C83EB41_6186DBF9_AADA085C_2C4E7AF2_E712A957,
    0x15921919_DECECABC_585AB812_93066BB7_8E035B0F_455F88AA_C3CBFA04_089729A1,
    0xF9C19B74_329D48D1_B4093A7F_7F55E9DA_6250D962_A90C0AC7_2F987869_E4C4ABCC ]

/-- `Crc32Lookup[6]`. -/
def slice6 : List Nat :=
  [ 0x00000000_A6770BB4_979F1129_31E81A9D_F44F2413_52382FA7_63D0353A_C5A73E8E,
    0x33EF4E67_959845D3_A4705F4E_020754FA_C7A06A74_61D761C0_503F7B5D_F64870E9,
    0x67DE9CCE_C1A9977A_F0418DE7_56368653_9391B8DD_35E6B369_040EA9F4_A279A240,
    0x5431D2A9_F246D91D_C3AEC380_65D9C834_A07EF6BA_0609FD0E_37E1E793_9196EC27,
    0xCFBD399C_69CA3228_582228B5_FE552301_3BF21D8F_9D85163B_AC6D0CA6_0A1A0712,
    0xFC5277FB_5A257C4F_6BCD66D2_CDBA6D66_081D53E8_AE6A585C_9F8242C1_39F54975,
    0xA863A552_0E14AEE6_3FFCB47B_998BBFCF_5C2C8141_FA5B8AF5_CBB39068_6DC49BDC,
    0x9B8CEB35_3DFBE081_0C13FA1C_AA64F1A8_6FC3CF26_C9B4C492_F85CDE0F_5E2BD5BB,
    0x440B7579_E27C7ECD_D3946450_75E36FE4_B044516A_16335ADE_27DB4043_81AC4BF7,
    0x77E43B1E_D19330AA_E07B2A37_460C2183_83AB1F0D_25DC14B9_14340E24_B2430590,
    0x23D5E9B7_85A2E203_B44AF89E_123DF32A_D79ACDA4_71EDC610_4005DC8D_E672D739,
    0x103AA7D0_B64DAC64_87A5B6F9_21D2BD4D_E47583C3_42028877_73EA92EA_D59D995E,
    0x8BB64CE5_2DC14751_1C295DCC_BA5E5678_7FF968F6_D98E6342_E86679DF_4E11726B,
    0xB8590282_1E2E0936_2FC613AB_89B1181F_4C162691_EA612D25_DB8937B8_7DFE3C0C,
    0xEC68D02B_4A1FDB9F_7BF7C102_DD80CAB6_1827F438_BE50FF8C_8FB8E511_29CFEEA5,
    0xDF879E4C_79F095F8_48188F65_EE6F84D1_2BC8BA5F_8DBFB1EB_BC57AB76_1A20A0C2,
    0x8816EAF2_2E61E146_1F89FBDB_B9FEF06F_7C59CEE1_DA2EC555_EBC6DFC8_4DB1D47C,
    0xBBF9A495_1D8EAF21_2C66B5BC_8A11BE08_4FB68086_E9C18B32_D82991AF_7E5E9A1B,
    0xEFC8763C_49BF7D88_78576715_DE206CA1_1B87522F_BDF0599B_8C184306_2A6F48B2,
    0xDC27385B_7A5033EF_4BB82972_EDCF22C6_28681C48_8E1F17FC_BFF70D61_198006D5,
    0x47ABD36E_E1DCD8DA_D034C247_7643C9F3_B3E4F77D_1593FCC9_247BE654_820CEDE0,
    0x74449D09_D23396BD_E3DB8C20_45AC8794_800BB91A_267CB2AE_1794A833_B1E3A387,
    0x20754FA0_86024414_B7EA5E89_119D553D_D43A6BB3_724D6007_43A57A9A_E5D2712E,
    0x139A01C7_B5ED0A73_840510EE_22721B5A_E7D525D4_41A22E60_704A34FD_D63D3F49,
    0xCC1D9F8B_6A6A943F_5B828EA2_FDF58516_3852BB98_9E25B02C_AFCDAAB1_09BAA105,
    0xFFF2D1EC_5985DA58_686DC0C5_CE1ACB71_0BBDF5FF_ADCAFE4B_9C22E4D6_3A55EF62,
    0xABC30345_0DB408F1_3C5C126C_9A2B19D8_5F8C2756_F9FB2CE2_C813367F_6E643DCB,
    0x982C4D22_3E5B4696_0FB35C0B_A9C457BF_6C636931_CA146285_FBFC7818_5D8B73AC,
    0x03A0A617_A5D7ADA3_943FB73E_3248BC8A_F7EF8204_519889B0_6070932D_C6079899,
    0x304FE870_9638E3C4_A7D0F959_01A7F2ED_C400CC63_6277C7D7_539FDD4A_F5E8D6FE,
    0x647E3AD9_C209316D_F3E12BF0_55962044_90311ECA_3646157E_07AE0FE3_A1D90457,
    0x579174BE_F1E67F0A_C00E6597_66796E23_A3DE50AD_05A95B19_34414184_92364A30 ]

/-- `Crc32Lookup[7]`. -/
def slice7 : List Nat :=
  [ 0x00000000_CCAA009E_4225077D_8E8F07E3_844A0EFA_48E00E64_C66F0987_0AC50919,
    0xD3E51BB5_1F4F1B2B_91C01CC8_5D6A1C56_57AF154F_9B0515D1_158A1232_D92012AC,
    0x7CBB312B_B01131B5_3E9E3656_F23436C8_F8F13FD1_345B3F4F_BAD438AC_767E3832,
    0xAF5E2A9E_63F42A00_ED7B2DE3_21D12D7D_2B142464_E7BE24FA_69312319_A59B2387,
    0xF9766256_35DC62C8_BB53652B_77F965B5_7D3C6CAC_B1966C32_3F196BD1_F3B36B4F,
    0x2A9379E3_E639797D_68B67E9E_A41C7E00_AED97719_62737787_ECFC7064_205670FA,
    0x85CD537D_496753E3_C7E85400_0B42549E_01875D87_CD2D5D19_43A25AFA_8F085A64,
    0x562848C8_9A824856_140D4FB5_D8A74F2B_D2624632_1EC846AC_9047414F_5CED41D1,
    0x299DC2ED_E537C273_6BB8C590_A712C50E_ADD7CC17_617DCC89_EFF2CB6A_2358CBF4,
    0xFA78D958_36D2D9C6_B85DDE25_74F7DEBB_7E32D7A2_B298D73C_3C17D0DF_F0BDD041,
    0x5526F3C6_998CF358_1703F4BB_DBA9F425_D16CFD3C_1DC6FDA2_9349FA41_5FE3FADF,
    0x86C3E873_4A69E8ED_C4E6EF0E_084CEF90_0289E689_CE23E617_40ACE1F4_8C06E16A,
    0xD0EBA0BB_1C41A025_92CEA7C6_5E64A758_54A1AE41_980BAEDF_1684A93C_DA2EA9A2,
    0x030EBB0E_CFA4BB90_412BBC73_8D81BCED_8744B5F4_4BEEB56A_C561B289_09CBB217,
    0xAC509190_60FA910E_EE7596ED_22DF9673_281A9F6A_E4B09FF4_6A3F9817_A6959889,
    0x7FB58A25_B31F8ABB_3D908D58_F13A8DC6_FBFF84DF_37558441_B9DA83A2_7570833C,
    0x533B85DA_9F918544_111E82A7_DDB48239_D7718B20_1BDB8BBE_95548C5D_59FE8CC3,
    0x80DE9E6F_4C749EF1_C2FB9912_0E51998C_04949095_C83E900B_46B197E8_8A1B9776,
    0x2F80B4F1_E32AB46F_6DA5B38C_A10FB312_ABCABA0B_6760BA95_E9EFBD76_2545BDE8,
    0xFC65AF44_30CFAFDA_BE40A839_72EAA8A7_782FA1BE_B485A120_3A0AA6C3_F6A0A65D,
    0xAA4DE78C_66E7E712_E868E0F1_24C2E06F_2E07E976_E2ADE9E8_6C22EE0B_A088EE95,
    0x79A8FC39_B502FCA7_3B8DFB44_F727FBDA_FDE2F2C3_3148F25D_BFC7F5BE_736DF520,
    0xD6F6D6A7_1A5CD639_94D3D1DA_5879D144_52BCD85D_9E16D8C3_1099DF20_DC33DFBE,
    0x0513CD12_C9B9CD8C_4736CA6F_8B9CCAF1_8159C3E8_4DF3C376_C37CC495_0FD6C40B,
    0x7AA64737_B60C47A9_3883404A_F42940D4_FEEC49CD_32464953_BCC94EB0_70634E2E,
    0xA9435C82_65E95C1C_EB665BFF_27CC5B61_2D095278_E1A352E6_6F2C5505_A386559B,
    0x061D761C_CAB77682_44387161_889271FF_825778E6_4EFD7878_C0727F9B_0CD87F05,
    0xD5F86DA9_19526D37_97DD6AD4_5B776A4A_51B26353_9D1863CD_1397642E_DF3D64B0,
    0x83D02561_4F7A25FF_C1F5221C_0D5F2282_079A2B9B_CB302B05_45BF2CE6_89152C78,
    0x50353ED4_9C9F3E4A_121039A9_DEBA3937_D47F302E_18D530B0_965A3753_5AF037CD,
    0xFF6B144A_33C114D4_BD4E1337_71E413A9_7B211AB0_B78B1A2E_39041DCD_F5AE1D53,
    0x2C8E0FFF_E0240F61_6EAB0882_A201081C_A8C40105_646E019B_EAE10678_264B06E6 ]

/-- `Crc32Lookup[8]`. -/
def slice8 : List Nat :=
  [ 0x00000000_177B1443_2EF62886_398D3CC5_5DEC510C_4A97454F_731A798A_64616DC9,
    0xBBD8A218_ACA3B65B_952E8A9E_82559EDD_E634F314_F14FE757_C8C2DB92_DFB9CFD1,
    0xACC04271_BBBB5632_82366AF7_954D7EB4_F12C137D_E657073E_DFDA3BFB_C8A12FB8,
    0x1718E069_0063F42A_39EEC8EF_2E95DCAC_4AF4B165_5D8FA526_640299E3_73798DA0,
    0x82F182A3_958A96E0_AC07AA25_BB7CBE66_DF1DD3AF_C866C7EC_F1EBFB29_E690EF6A,
    0x392920BB_2E5234F8_17DF083D_00A41C7E_64C571B7_73BE65F4_4A335931_5D484D72,
    0x2E31C0D2_394AD491_00C7E854_17BCFC17_73DD91DE_64A6859D_5D2BB958_4A50AD1B,
    0x95E962CA_82927689_BB1F4A4C_AC645E0F_C80533C6_DF7E2785_E6F31B40_F1880F03,
    0xDE920307_C9E91744_F0642B81_E71F3FC2_837E520B_94054648_AD887A8D_BAF36ECE,
    0x654AA11F_7231B55C_4BBC8999_5CC79DDA_38A6F013_2FDDE450_1650D895_012BCCD6,
    0x72524176_65295535_5CA469F0_4BDF7DB3_2FBE107A_38C50439_014838FC_16332CBF,
    0xC98AE36E_DEF1F72D_E77CCBE8_F007DFAB_9466B262_831DA621_BA909AE4_ADEB8EA7,
    0x5C6381A4_4B1895E7_7295A922_65EEBD61_018FD0A8_16F4C4EB_2F79F82E_3802EC6D,
    0xE7BB23BC_F0C037FF_C94D0B3A_DE361F79_BA5772B0_AD2C66F3_94A15A36_83DA4E75,
    0xF0A3C3D5_E7D8D796_DE55EB53_C92EFF10_AD4F92D9_BA34869A_83B9BA5F_94C2AE1C,
    0x4B7B61CD_5C00758E_658D494B_72F65D08_169730C1_01EC2482_38611847_2F1A0C04,
    0x6655004F_712E140C_48A328C9_5FD83C8A_3BB95143_2CC24500_154F79C5_02346D86,
    0xDD8DA257_CAF6B614_F37B8AD1_E4009E92_8061F35B_971AE718_AE97DBDD_B9ECCF9E,
    0xCA95423E_DDEE567D_E4636AB8_F3187EFB_97791332_80020771_B98F3BB4_AEF42FF7,
    0x714DE026_6636F465_5FBBC8A0_48C0DCE3_2CA1B12A_3BDAA569_025799AC_152C8DEF,
    0xE4A482EC_F3DF96AF_CA52AA6A_DD29BE29_B948D3E0_AE33C7A3_97BEFB66_80C5EF25,
    0x5F7C20F4_480734B7_718A0872_66F11C31_029071F8_15EB65BB_2C66597E_3B1D4D3D,
    0x4864C09D_5F1FD4DE_6692E81B_71E9FC58_15889191_02F385D2_3B7EB917_2C05AD54,
    0xF3BC6285_E4C776C6_DD4A4A03_CA315E40_AE503389_B92B27CA_80A61B0F_97DD0F4C,
    0xB8C70348_AFBC170B_96312BCE_814A3F8D_E52B5244_F2504607_CBDD7AC2_DCA66E81,
    0x031FA150_1464B513_2DE989D6_3A929D95_5EF3F05C_4988E41F_7005D8DA_677ECC99,
    0x14074139_037C557A_3AF169BF_2D8A7DFC_49EB1035_5E900476_671D38B3_70662CF0,
    0xAFDFE321_B8A4F762_8129CBA7_9652DFE4_F233B22D_E548A66E_DCC59AAB_CBBE8EE8,
    0x3A3681EB_2D4D95A8_14C0A96D_03BBBD2E_67DAD0E7_70A1C4A4_492CF861_5E57EC22,
    0x81EE23F3_969537B0_AF180B75_B8631F36_DC0272FF_CB7966BC_F2F45A79_E58F4E3A,
    0x96F6C39A_818DD7D9_B800EB1C_AF7BFF5F_CB1A9296_DC6186D5_E5ECBA10_F297AE53,
    0x2D2E6182_3A5575C1_03D84904_14A35D47_70C2308E_67B924CD_5E341808_494F0C4B ]

/-- `Crc32Lookup[9]`. -/
def slice9 : List Nat :=
  [ 0x00000000_EFC26B3E_04F5D03D_EB37BB03_09EBA07A_E629CB44_0D1E7047_E2DC1B79,
    0x13D740F4_FC152BCA_172290C9_F8E0FBF7_1A3CE08E_F5FE8BB0_1EC930B3_F10B5B8D,
    0x27AE81E8_C86CEAD6_235B51D5_CC993AEB_2E452192_C1874AAC_2AB0F1AF_C5729A91,
    0x3479C11C_DBBBAA22_308C1121_DF4E7A1F_3D926166_D2500A58_3967B15B_D6A5DA65,
    0x4F5D03D0_A09F68EE_4BA8D3ED_A46AB8D3_46B6A3AA_A974C894_42437397_AD8118A9,
    0x5C8A4324_B348281A_587F9319_B7BDF827_5561E35E_BAA38860_51943363_BE56585D,
    0x68F38238_8731E906_6C065205_83C4393B_61182242_8EDA497C_65EDF27F_8A2F9941,
    0x7B24C2CC_94E6A9F2_7FD112F1_901379CF_72CF62B6_9D0D0988_763AB28B_99F8D9B5,
    0x9EBA07A0_71786C9E_9A4FD79D_758DBCA3_9751A7DA_7893CCE4_93A477E7_7C661CD9,
    0x8D6D4754_62AF2C6A_89989769_665AFC57_8486E72E_6B448C10_80733713_6FB15C2D,
    0xB9148648_56D6ED76_BDE15675_52233D4B_B0FF2632_5F3D4D0C_B40AF60F_5BC89D31,
    0xAAC3C6BC_4501AD82_AE361681_41F47DBF_A32866C6_4CEA0DF8_A7DDB6FB_481FDDC5,
    0xD1E70470_3E256F4E_D512D44D_3AD0BF73_D80CA40A_37CECF34_DCF97437_333B1F09,
    0xC2304484_2DF22FBA_C6C594B9_2907FF87_CBDBE4FE_24198FC0_CF2E34C3_20EC5FFD,
    0xF6498598_198BEEA6_F2BC55A5_1D7E3E9B_FFA225E2_10604EDC_FB57F5DF_14959EE1,
    0xE59EC56C_0A5CAE52_E16B1551_0EA97E6F_EC756516_03B70E28_E880B52B_0742DE15,
    0xE6050901_09C7623F_E2F0D93C_0D32B202_EFEEA97B_002CC245_EB1B7946_04D91278,
    0xF5D249F5_1A1022CB_F12799C8_1EE5F2F6_FC39E98F_13FB82B1_F8CC39B2_170E528C,
    0xC1AB88E9_2E69E3D7_C55E58D4_2A9C33EA_C8402893_278243AD_CCB5F8AE_23779390,
    0xD27CC81D_3DBEA323_D6891820_394B731E_DB976867_34550359_DF62B85A_30A0D364,
    0xA9580AD1_469A61EF_ADADDAEC_426FB1D2_A0B3AAAB_4F71C195_A4467A96_4B8411A8,
    0xBA8F4A25_554D211B_BE7A9A18_51B8F126_B364EA5F_5CA68161_B7913A62_5853515C,
    0x8EF68B39_6134E007_8A035B04_65C1303A_871D2B43_68DF407D_83E8FB7E_6C2A9040,
    0x9D21CBCD_72E3A0F3_99D41BF0_761670CE_94CA6BB7_7B080089_903FBB8A_7FFDD0B4,
    0x78BF0EA1_977D659F_7C4ADE9C_9388B5A2_7154AEDB_9E96C5E5_75A17EE6_9A6315D8,
    0x6B684E55_84AA256B_6F9D9E68_805FF556_6283EE2F_8D418511_66763E12_89B4552C,
    0x5F118F49_B0D3E477_5BE45F74_B426344A_56FA2F33_B938440D_520FFF0E_BDCD9430,
    0x4CC6CFBD_A304A483_48331F80_A7F174BE_452D6FC7_AAEF04F9_41D8BFFA_AE1AD4C4,
    0x37E20D71_D820664F_3317DD4C_DCD5B672_3E09AD0B_D1CBC635_3AFC7D36_D53E1608,
    0x24354D85_CBF726BB_20C09DB8_CF02F686_2DDEEDFF_C21C86C1_292B3DC2_C6E956FC,
    0x104C8C99_FF8EE7A7_14B95CA4_FB7B379A_19A72CE3_F66547DD_1D52FCDE_F29097E0,
    0x039BCC6D_EC59A753_076E1C50_E8AC776E_0A706C17_E5B20729_0E85BC2A_E147D714 ]

/-- `Crc32Lookup[10]`. -/
def slice10 : List Nat :=
  [ 0x00000000_C18EDFC0_586CB9C1_99E26601_B0D97382_7157AC42_E8B5CA43_293B1583,
    0xBAC3E145_7B4D3E85_E2AF5884_23218744_0A1A92C7_CB944D07_52762B06_93F8F4C6,
    0xAEF6C4CB_6F781B0B_F69A7D0A_3714A2CA_1E2FB749_DFA16889_46430E88_87CDD148,
    0x1435258E_D5BBFA4E_4C599C4F_8DD7438F_A4EC560C_656289CC_FC80EFCD_3D0E300D,
    0x869C8FD7_47125017_DEF03616_1F7EE9D6_3645FC55_F7CB2395_6E294594_AFA79A54,
    0x3C5F6E92_FDD1B152_6433D753_A5BD0893_8C861D10_4D08C2D0_D4EAA4D1_15647B11,
    0x286A4B1C_E9E494DC_7006F2DD_B1882D1D_98B3389E_593DE75E_C0DF815F_01515E9F,
    0x92A9AA59_53277599_CAC51398_0B4BCC58_2270D9DB_E3FE061B_7A1C601A_BB92BFDA,
    0xD64819EF_17C6C62F_8E24A02E_4FAA7FEE_66916A6D_A71FB5AD_3EFDD3AC_FF730C6C,
    0x6C8BF8AA_AD05276A_34E7416B_F5699EAB_DC528B28_1DDC54E8_843E32E9_45B0ED29,
    0x78BEDD24_B93002E4_20D264E5_E15CBB25_C867AEA6_09E97166_900B1767_5185C8A7,
    0xC27D3C61_03F3E3A1_9A1185A0_5B9F5A60_72A44FE3_B32A9023_2AC8F622_EB4629E2,
    0x50D49638_915A49F8_08B82FF9_C936F039_E00DE5BA_21833A7A_B8615C7B_79EF83BB,
    0xEA17777D_2B99A8BD_B27BCEBC_73F5117C_5ACE04FF_9B40DB3F_02A2BD3E_C32C62FE,
    0xFE2252F3_3FAC8D33_A64EEB32_67C034F2_4EFB2171_8F75FEB1_169798B0_D7194770,
    0x44E1B3B6_856F6C76_1C8D0A77_DD03D5B7_F438C034_35B61FF4_AC5479F5_6DDAA635,
    0x77E1359F_B66FEA5F_2F8D8C5E_EE03539E_C738461D_06B699DD_9F54FFDC_5EDA201C,
    0xCD22D4DA_0CAC0B1A_954E6D1B_54C0B2DB_7DFBA758_BC757898_25971E99_E419C159,
    0xD917F154_18992E94_817B4895_40F59755_69CE82D6_A8405D16_31A23B17_F02CE4D7,
    0x63D41011_A25ACFD1_3BB8A9D0_FA367610_D30D6393_1283BC53_8B61DA52_4AEF0592,
    0xF17DBA48_30F36588_A9110389_689FDC49_41A4C9CA_802A160A_19C8700B_D846AFCB,
    0x4BBE5B0D_8A3084CD_13D2E2CC_D25C3D0C_FB67288F_3AE9F74F_A30B914E_62854E8E,
    0x5F8B7E83_9E05A143_07E7C742_C6691882_EF520D01_2EDCD2C1_B73EB4C0_76B06B00,
    0xE5489FC6_24C64006_BD242607_7CAAF9C7_5591EC44_941F3384_0DFD5585_CC738A45,
    0xA1A92C70_6027F3B0_F9C595B1_384B4A71_11705FF2_D0FE8032_491CE633_889239F3,
    0x1B6ACD35_DAE412F5_430674F4_8288AB34_ABB3BEB7_6A3D6177_F3DF0776_3251D8B6,
    0x0F5FE8BB_CED1377B_5733517A_96BD8EBA_BF869B39_7E0844F9_E7EA22F8_2664FD38,
    0xB59C09FE_7412D63E_EDF0B03F_2C7E6FFF_05457A7C_C4CBA5BC_5D29C3BD_9CA71C7D,
    0x2735A3A7_E6BB7C67_7F591A66_BED7C5A6_97ECD025_56620FE5_CF8069E4_0E0EB624,
    0x9DF642E2_5C789D22_C59AFB23_041424E3_2D2F3160_ECA1EEA0_754388A1_B4CD5761,
    0x89C3676C_484DB8AC_D1AFDEAD_1021016D_391A14EE_F894CB2E_6176AD2F_A0F872EF,
    0x33008629_F28E59E9_6B6C3FE8_AAE2E028_83D9F5AB_42572A6B_DBB54C6A_1A3B93AA ]

/-- `Crc32Lookup[11]`. -/
def slice11 : List Nat :=
  [ 0x00000000_9BA54C6F_EC3B9E9F_779ED2F0_03063B7F_98A37710_EF3DA5E0_7498E98F,
    0x060C76FE_9DA93A91_EA37E861_7192A40E_050A4D81_9EAF01EE_E931D31E_72949F71,
    0x0C18EDFC_97BDA193_E0237363_7B863F0C_0F1ED683_94BB9AEC_E325481C_78800473,
    0x0A149B02_91B1D76D_E62F059D_7D8A49F2_0912A07D_92B7EC12_E5293EE2_7E8C728D,
    0x1831DBF8_83949797_F40A4567_6FAF0908_1B37E087_8092ACE8_F70C7E18_6CA93277,
    0x1E3DAD06_8598E169_F2063399_69A37FF6_1D3B9679_869EDA16_F10008E6_6AA54489,
    0x14293604_8F8C7A6B_F812A89B_63B7E4F4_172F0D7B_8C8A4114_FB1493E4_60B1DF8B,
    0x122540FA_89800C95_FE1EDE65_65BB920A_11237B85_8A8637EA_FD18E51A_66BDA975,
    0x3063B7F0_ABC6FB9F_DC58296F_47FD6500_33658C8F_A8C0C0E0_DF5E1210_44FB5E7F,
    0x366FC10E_ADCA8D61_DA545F91_41F113FE_3569FA71_AECCB61E_D95264EE_42F72881,
    0x3C7B5A0C_A7DE1663_D040C493_4BE588FC_3F7D6173_A4D82D1C_D346FFEC_48E3B383,
    0x3A772CF2_A1D2609D_D64CB26D_4DE9FE02_3971178D_A2D45BE2_D54A8912_4EEFC57D,
    0x28526C08_B3F72067_C469F297_5FCCBEF8_2B545777_B0F11B18_C76FC9E8_5CCA8587,
    0x2E5E1AF6_B5FB5699_C2658469_59C0C806_2D582189_B6FD6DE6_C163BF16_5AC6F379,
    0x244A81F4_BFEFCD9B_C8711F6B_53D45304_274CBA8B_BCE9F6E4_CB772414_50D2687B,
    0x2246F70A_B9E3BB65_CE7D6995_55D825FA_2140CC75_BAE5801A_CD7B52EA_56DE1E85,
    0x60C76FE0_FB62238F_8CFCF17F_1759BD10_63C1549F_F86418F0_8FFACA00_145F866F,
    0x66CB191E_FD6E5571_8AF08781_1155CBEE_65CD2261_FE686E0E_89F6BCFE_1253F091,
    0x6CDF821C_F77ACE73_80E41C83_1B4150EC_6FD9B963_F47CF50C_83E227FC_18476B93,
    0x6AD3F4E2_F176B88D_86E86A7D_1D4D2612_69D5CF9D_F27083F2_85EE5102_1E4B1D6D,
    0x78F6B418_E353F877_94CD2A87_0F6866E8_7BF08F67_E055C308_97CB11F8_0C6E5D97,
    0x7EFAC2E6_E55F8E89_92C15C79_09641016_7DFCF999_E659B5F6_91C76706_0A622B69,
    0x74EE59E4_EF4B158B_98D5C77B_03708B14_77E8629B_EC4D2EF4_9BD3FC04_0076B06B,
    0x72E22F1A_E9476375_9ED9B185_057CFDEA_71E41465_EA41580A_9DDF8AFA_067AC695,
    0x50A4D810_CB01947F_BC9F468F_273A0AE0_53A2E36F_C807AF00_BF997DF0_243C319F,
    0x56A8AEEE_CD0DE281_BA933071_21367C1E_55AE9591_CE0BD9FE_B9950B0E_22304761,
    0x5CBC35EC_C7197983_B087AB73_2B22E71C_5FBA0E93_C41F42FC_B381900C_2824DC63,
    0x5AB04312_C1150F7D_B68BDD8D_2D2E91E2_59B6786D_C2133402_B58DE6F2_2E28AA9D,
    0x489503E8_D3304F87_A4AE9D77_3F0BD118_4B933897_D03674F8_A7A8A608_3C0DEA67,
    0x4E997516_D53C3979_A2A2EB89_3907A7E6_4D9F4E69_D63A0206_A1A4D0F6_3A019C99,
    0x448DEE14_DF28A27B_A8B6708B_33133CE4_478BD56B_DC2E9904_ABB04BF4_3015079B,
    0x428198EA_D924D485_AEBA0675_351F4A1A_4187A395_DA22EFFA_ADBC3D0A_36197165 ]

/-- `Crc32Lookup[12]`. -/
def slice12 : List Nat :=
  [ 0x00000000_DD96D985_605CB54B_BDCA6CCE_C0B96A96_1D2FB313_A0E5DFDD_7D730658,
    0x5A03D36D_87950AE8_3A5F6626_E7C9BFA3_9ABAB9FB_472C607E_FAE60CB0_2770D535,
    0xB407A6DA_69917F5F_D45B1391_09CDCA14_74BECC4C_A92815C9_14E27907_C974A082,
    0xEE0475B7_3392AC32_8E58C0FC_53CE1979_2EBD1F21_F32BC6A4_4EE1AA6A_937773EF,
    0xB37E4BF5_6EE89270_D322FEBE_0EB4273B_73C72163_AE51F8E6_139B9428_CE0D4DAD,
    0xE97D9898_34EB411D_89212DD3_54B7F456_29C4F20E_F4522B8B_49984745_940E9EC0,
    0x0779ED2F_DAEF34AA_67255864_BAB381E1_C7C087B9_1A565E3C_A79C32F2_7A0AEB77,
    0x5D7A3E42_80ECE7C7_3D268B09_E0B0528C_9DC354D4_40558D51_FD9FE19F_2009381A,
    0xBD8D91AB_601B482E_DDD124E0_0047FD65_7D34FB3D_A0A222B8_1D684E76_C0FE97F3,
    0xE78E42C6_3A189B43_87D2F78D_5A442E08_27372850_FAA1F1D5_476B9D1B_9AFD449E,
    0x098A3771_D41CEEF4_69D6823A_B4405BBF_C9335DE7_14A58462_A96FE8AC_74F93129,
    0x5389E41C_8E1F3D99_33D55157_EE4388D2_93308E8A_4EA6570F_F36C3BC1_2EFAE244,
    0x0EF3DA5E_D36503DB_6EAF6F15_B339B690_CE4AB0C8_13DC694D_AE160583_7380DC06,
    0x54F00933_8966D0B6_34ACBC78_E93A65FD_944963A5_49DFBA20_F415D6EE_29830F6B,
    0xBAF47C84_6762A501_DAA8C9CF_073E104A_7A4D1612_A7DBCF97_1A11A359_C7877ADC,
    0xE0F7AFE9_3D61766C_80AB1AA2_5D3DC327_204EC57F_FDD81CFA_40127034_9D84A9B1,
    0xA06A2517_7DFCFC92_C036905C_1DA049D9_60D34F81_BD459604_008FFACA_DD19234F,
    0xFA69F67A_27FF2FFF_9A354331_47A39AB4_3AD09CEC_E7464569_5A8C29A7_871AF022,
    0x146D83CD_C9FB5A48_74313686_A9A7EF03_D4D4E95B_094230DE_B4885C10_691E8595,
    0x4E6E50A0_93F88925_2E32E5EB_F3A43C6E_8ED73A36_5341E3B3_EE8B8F7D_331D56F8,
    0x13146EE2_CE82B767_7348DBA9_AEDE022C_D3AD0474_0E3BDDF1_B3F1B13F_6E6768BA,
    0x4917BD8F_9481640A_294B08C4_F4DDD141_89AED719_54380E9C_E9F26252_3464BBD7,
    0xA713C838_7A8511BD_C74F7D73_1AD9A4F6_67AAA2AE_BA3C7B2B_07F617E5_DA60CE60,
    0xFD101B55_2086C2D0_9D4CAE1E_40DA779B_3DA971C3_E03FA846_5DF5C488_80631D0D,
    0x1DE7B4BC_C0716D39_7DBB01F7_A02DD872_DD5EDE2A_00C807AF_BD026B61_6094B2E4,
    0x47E467D1_9A72BE54_27B8D29A_FA2E0B1F_875D0D47_5ACBD4C2_E701B80C_3A976189,
    0xA9E01266_7476CBE3_C9BCA72D_142A7EA8_695978F0_B4CFA175_0905CDBB_D493143E,
    0xF3E3C10B_2E75188E_93BF7440_4E29ADC5_335AAB9D_EECC7218_53061ED6_8E90C753,
    0xAE99FF49_730F26CC_CEC54A02_13539387_6E2095DF_B3B64C5A_0E7C2094_D3EAF911,
    0xF49A2C24_290CF5A1_94C6996F_495040EA_342346B2_E9B59F37_547FF3F9_89E92A7C,
    0x1A9E5993_C7088016_7AC2ECD8_A754355D_DA273305_07B1EA80_BA7B864E_67ED5FCB,
    0x409D8AFE_9D0B537B_20C13FB5_FD57E630_8024E068_5DB239ED_E0785523_3DEE8CA6 ]

/-- `Crc32Lookup[13]`. -/
def slice13 : List Nat :=
  [ 0x00000000_9D0FE176_E16EC4AD_7C6125DB_19AC8F1B_84A36E6D_F8C24BB6_65CDAAC0,
    0x33591E36_AE56FF40_D237DA9B_4F383BED_2AF5912D_B7FA705B_CB9B5580_5694B4F6,
    0x66B23C6C_FBBDDD1A_87DCF8C1_1AD319B7_7F1EB377_E2115201_9E7077DA_037F96AC,
    0x55EB225A_C8E4C32C_B485E6F7_298A0781_4C47AD41_D1484C37_AD2969EC_3026889A,
    0xCD6478D8_506B99AE_2C0ABC75_B1055D03_D4C8F7C3_49C716B5_35A6336E_A8A9D218,
    0xFE3D66EE_63328798_1F53A243_825C4335_E791E9F5_7A9E0883_06FF2D58_9BF0CC2E,
    0xABD644B4_36D9A5C2_4AB88019_D7B7616F_B27ACBAF_2F752AD9_53140F02_CE1BEE74,
    0x988F5A82_0580BBF4_79E19E2F_E4EE7F59_8123D599_1C2C34EF_604D1134_FD42F042,
    0x41B9F7F1_DCB61687_A0D7335C_3DD8D22A_581578EA_C51A999C_B97BBC47_24745D31,
    0x72E0E9C7_EFEF08B1_938E2D6A_0E81CC1C_6B4C66DC_F64387AA_8A22A271_172D4307,
    0x270BCB9D_BA042AEB_C6650F30_5B6AEE46_3EA74486_A3A8A5F0_DFC9802B_42C6615D,
    0x1452D5AB_895D34DD_F53C1106_6833F070_0DFE5AB0_90F1BBC6_EC909E1D_719F7F6B,
    0x8CDD8F29_11D26E5F_6DB34B84_F0BCAAF2_95710032_087EE144_741FC49F_E91025E9,
    0xBF84911F_228B7069_5EEA55B2_C3E5B4C4_A6281E04_3B27FF72_4746DAA9_DA493BDF,
    0xEA6FB345_77605233_0B0177E8_960E969E_F3C33C5E_6ECCDD28_12ADF8F3_8FA21985,
    0xD936AD73_44394C05_385869DE_A55788A8_C09A2268_5D95C31E_21F4E6C5_BCFB07B3,
    0x8373EFE2_1E7C0E94_621D2B4F_FF12CA39_9ADF60F9_07D0818F_7BB1A454_E6BE4522,
    0xB02AF1D4_2D2510A2_51443579_CC4BD40F_A9867ECF_34899FB9_48E8BA62_D5E75B14,
    0xE5C1D38E_78CE32F8_04AF1723_99A0F655_FC6D5C95_6162BDE3_1D039838_800C794E,
    0xD698CDB8_4B972CCE_37F60915_AAF9E863_CF3442A3_523BA3D5_2E5A860E_B3556778,
    0x4E17973A_D318764C_AF795397_3276B2E1_57BB1821_CAB4F957_B6D5DC8C_2BDA3DFA,
    0x7D4E890C_E041687A_9C204DA1_012FACD7_64E20617_F9EDE761_858CC2BA_188323CC,
    0x28A5AB56_B5AA4A20_C9CB6FFB_54C48E8D_3109244D_AC06C53B_D067E0E0_4D680196,
    0x1BFCB560_86F35416_FA9271CD_679D90BB_02503A7B_9F5FDB0D_E33EFED6_7E311FA0,
    0xC2CA1813_5FC5F965_23A4DCBE_BEAB3DC8_DB669708_4669767E_3A0853A5_A707B2D3,
    0xF1930625_6C9CE753_10FDC288_8DF223FE_E83F893E_75306848_09514D93_945EACE5,
    0xA478247F_3977C509_4516E0D2_D81901A4_BDD4AB64_20DB4A12_5CBA6FC9_C1B58EBF,
    0x97213A49_0A2EDB3F_764FFEE4_EB401F92_8E8DB552_13825424_6FE371FF_F2EC9089,
    0x0FAE60CB_92A181BD_EEC0A466_73CF4510_1602EFD0_8B0D0EA6_F76C2B7D_6A63CA0B,
    0x3CF77EFD_A1F89F8B_DD99BA50_40965B26_255BF1E6_B8541090_C435354B_593AD43D,
    0x691C5CA7_F413BDD1_8872980A_157D797C_70B0D3BC_EDBF32CA_91DE1711_0CD1F667,
    0x5A454291_C74AA3E7_BB2B863C_2624674A_43E9CD8A_DEE62CFC_A2870927_3F88E851 ]

/-- `Crc32Lookup[14]`. -/
def slice14 : List Nat :=
  [ 0x00000000_B9FBDBE8_A886B191_117D6A79_8A7C6563_3387BE8B_22FAD4F2_9B010F1A,
    0xCF89CC87_7672176F_670F7D16_DEF4A6FE_45F5A9E4_FC0E720C_ED731875_5488C39D,
    0x44629F4F_FD9944A7_ECE42EDE_551FF536_CE1EFA2C_77E521C4_66984BBD_DF639055,
    0x8BEB53C8_32108820_236DE259_9A9639B1_019736AB_B86CED43_A911873A_10EA5CD2,
    0x88C53E9E_313EE576_20438F0F_99B854E7_02B95BFD_BB428015_AA3FEA6C_13C43184,
    0x474CF219_FEB729F1_EFCA4388_56319860_CD30977A_74CB4C92_65B626EB_DC4DFD03,
    0xCCA7A1D1_755C7A39_64211040_DDDACBA8_46DBC4B2_FF201F5A_EE5D7523_57A6AECB,
    0x032E6D56_BAD5B6BE_ABA8DCC7_1253072F_89520835_30A9D3DD_21D4B9A4_982F624C,
    0xCAFB7B7D_7300A095_627DCAEC_DB861104_40871E1E_F97CC5F6_E801AF8F_51FA7467,
    0x0572B7FA_BC896C12_ADF4066B_140FDD83_8F0ED299_36F50971_27886308_9E73B8E0,
    0x8E99E432_37623FDA_261F55A3_9FE48E4B_04E58151_BD1E5AB9_AC6330C0_1598EB28,
    0x411028B5_F8EBF35D_E9969924_506D42CC_CB6C4DD6_7297963E_63EAFC47_DA1127AF,
    0x423E45E3_FBC59E0B_EAB8F472_53432F9A_C8422080_71B9FB68_60C49111_D93F4AF9,
    0x8DB78964_344C528C_253138F5_9CCAE31D_07CBEC07_BE3037EF_AF4D5D96_16B6867E,
    0x065CDAAC_BFA70144_AEDA6B3D_1721B0D5_8C20BFCF_35DB6427_24A60E5E_9D5DD5B6,
    0xC9D5162B_702ECDC3_6153A7BA_D8A87C52_43A97348_FA52A8A0_EB2FC2D9_52D41931,
    0x4E87F0BB_F77C2B53_E601412A_5FFA9AC2_C4FB95D8_7D004E30_6C7D2449_D586FFA1,
    0x810E3C3C_38F5E7D4_29888DAD_90735645_0B72595F_B28982B7_A3F4E8CE_1A0F3326,
    0x0AE56FF4_B31EB41C_A263DE65_1B98058D_80990A97_3962D17F_281FBB06_91E460EE,
    0xC56CA373_7C97789B_6DEA12E2_D411C90A_4F10C610_F6EB1DF8_E7967781_5E6DAC69,
    0xC642CE25_7FB915CD_6EC47FB4_D73FA45C_4C3EAB46_F5C570AE_E4B81AD7_5D43C13F,
    0x09CB02A2_B030D94A_A14DB333_18B668DB_83B767C1_3A4CBC29_2B31D650_92CA0DB8,
    0x8220516A_3BDB8A82_2AA6E0FB_935D3B13_085C3409_B1A7EFE1_A0DA8598_19215E70,
    0x4DA99DED_F4524605_E52F2C7C_5CD4F794_C7D5F88E_7E2E2366_6F53491F_D6A892F7,
    0x847C8BC6_3D87502E_2CFA3A57_9501E1BF_0E00EEA5_B7FB354D_A6865F34_1F7D84DC,
    0x4BF54741_F20E9CA9_E373F6D0_5A882D38_C1892222_7872F9CA_690F93B3_D0F4485B,
    0xC01E1489_79E5CF61_6898A518_D1637EF0_4A6271EA_F399AA02_E2E4C07B_5B1F1B93,
    0x0F97D80E_B66C03E6_A711699F_1EEAB277_85EBBD6D_3C106685_2D6D0CFC_9496D714,
    0x0CB9B558_B5426EB0_A43F04C9_1DC4DF21_86C5D03B_3F3E0BD3_2E4361AA_97B8BA42,
    0xC33079DF_7ACBA237_6BB6C84E_D24D13A6_494C1CBC_F0B7C754_E1CAAD2D_583176C5,
    0x48DB2A17_F120F1FF_E05D9B86_59A6406E_C2A74F74_7B5C949C_6A21FEE5_D3DA250D,
    0x8752E690_3EA93D78_2FD45701_962F8CE9_0D2E83F3_B4D5581B_A5A83262_1C53E98A ]

/-- `Crc32Lookup[15]`. -/
def slice15 : List Nat :=
  [ 0x00000000_AE689191_87A02563_29C8B4F2_D4314C87_7A59DD16_539169E4_FDF9F875,
    0x73139F4F_DD7B0EDE_F4B3BA2C_5ADB2BBD_A722D3C8_094A4259_2082F6AB_8EEA673A,
    0xE6273E9E_484FAF0F_61871BFD_CFEF8A6C_32167219_9C7EE388_B5B6577A_1BDEC6EB,
    0x9534A1D1_3B5C3040_129484B2_BCFC1523_4105ED56_EF6D7CC7_C6A5C835_68CD59A4,
    0x173F7B7D_B957EAEC_909F5E1E_3EF7CF8F_C30E37FA_6D66A66B_44AE1299_EAC68308,
    0x642CE432_CA4475A3_E38CC151_4DE450C0_B01DA8B5_1E753924_37BD8DD6_99D51C47,
    0xF11845E3_5F70D472_76B86080_D8D0F111_25290964_8B4198F5_A2892C07_0CE1BD96,
    0x820BDAAC_2C634B3D_05ABFFCF_ABC36E5E_563A962B_F85207BA_D19AB348_7FF222D9,
    0x2E7EF6FA_8016676B_A9DED399_07B64208_FA4FBA7D_54272BEC_7DEF9F1E_D3870E8F,
    0x5D6D69B5_F305F824_DACD4CD6_74A5DD47_895C2532_2734B4A3_0EFC0051_A09491C0,
    0xC859C864_663159F5_4FF9ED07_E1917C96_1C6884E3_B2001572_9BC8A180_35A03011,
    0xBB4A572B_1522C6BA_3CEA7248_9282E3D9_6F7B1BAC_C1138A3D_E8DB3ECF_46B3AF5E,
    0x39418D87_97291C16_BEE1A8E4_10893975_ED70C100_43185091_6AD0E463_C4B875F2,
    0x4A5212C8_E43A8359_CDF237AB_639AA63A_9E635E4F_300BCFDE_19C37B2C_B7ABEABD,
    0xDF66B319_710E2288_58C6967A_F6AE07EB_0B57FF9E_A53F6E0F_8CF7DAFD_229F4B6C,
    0xAC752C56_021DBDC7_2BD50935_85BD98A4_784460D1_D62CF140_FFE445B2_518CD423,
    0x5CFDEDF4_F2957C65_DB5DC897_75355906_88CCA173_26A430E2_0F6C8410_A1041581,
    0x2FEE72BB_8186E32A_A84E57D8_0626C649_FBDF3E3C_55B7AFAD_7C7F1B5F_D2178ACE,
    0xBADAD36A_14B242FB_3D7AF609_93126798_6EEB9FED_C0830E7C_E94BBA8E_47232B1F,
    0xC9C94C25_67A1DDB4_4E696946_E001F8D7_1DF800A2_B3909133_9A5825C1_3430B450,
    0x4BC29689_E5AA0718_CC62B3EA_620A227B_9FF3DA0E_319B4B9F_1853FF6D_B63B6EFC,
    0x38D109C6_96B99857_BF712CA5_1119BD34_ECE04541_4288D4D0_6B406022_C528F1B3,
    0xADE5A817_038D3986_2A458D74_842D1CE5_79D4E490_D7BC7501_FE74C1F3_501C5062,
    0xDEF63758_709EA6C9_5956123B_F73E83AA_0AC77BDF_A4AFEA4E_8D675EBC_230FCF2D,
    0x72831B0E_DCEB8A9F_F5233E6D_5B4BAFFC_A6B25789_08DAC618_211272EA_8F7AE37B,
    0x01908441_AFF815D0_8630A122_285830B3_D5A1C8C6_7BC95957_5201EDA5_FC697C34,
    0x94A42590_3ACCB401_130400F3_BD6C9162_40956917_EEFDF886_C7354C74_695DDDE5,
    0xE7B7BADF_49DF2B4E_60179FBC_CE7F0E2D_3386F658_9DEE67C9_B426D33B_1A4E42AA,
    0x65BC6073_CBD4F1E2_E21C4510_4C74D481_B18D2CF4_1FE5BD65_362D0997_98459806,
    0x16AFFF3C_B8C76EAD_910FDA5F_3F674BCE_C29EB3BB_6CF6222A_453E96D8_EB560749,
    0x839B5EED_2DF3CF7C_043B7B8E_AA53EA1F_57AA126A_F9C283FB_D00A3709_7E62A698,
    0xF088C1A2_5EE05033_7728E4C1_D9407550_24B98D25_8AD11CB4_A319A846_0D7139D7 ]

/-- `Crc32Lookup`. -/
def crc32LookupTable : List (List Nat) :=
  [slice0, slice1, slice2, slice3, slice4, slice5, slice6, slice7, slice8, slice9, slice10,
    slice11, slice12, slice13, slice14, slice15]

/-- `Crc32Lookup[slice][i]`. -/
def crc32Lookup (slice : Nat) (i : UInt32) : UInt32 :=
  UInt32.ofNat (((crc32LookupTable.getD slice []).getD (i.toNat / 8) 0)
    >>> (32 * (7 - i.toNat % 8)))

/-! ## What is in it -/

/-- A bit on numbers. -/
def bitNat (c : Nat) : Nat := Nat.xor (Nat.div c 2) (Nat.mul (Nat.mod c 2) 0xEDB88320)

theorem toNat_bit (c : UInt32) : (Crc.bit polynomial c).toNat = bitNat c.toNat := by
  have hshift : (c >>> 1).toNat = c.toNat / 2 := by simp [Nat.shiftRight_eq_div_pow]
  have hlow : c &&& 1 = 1 ↔ c.toNat % 2 = 1 := by
    rw [Crc.and_one_iff, BitVec.getLsbD, Nat.testBit_zero, decide_eq_true_eq]
    rfl
  have hpoly : (if c &&& 1 = 1 then polynomial else 0).toNat = c.toNat % 2 * 0xEDB88320 := by
    rcases Nat.mod_two_eq_zero_or_one c.toNat with h | h
    · rw [if_neg (by rw [hlow]; omega), h]
      rfl
    · rw [if_pos (hlow.mpr h), h]
      rfl
  rw [Crc.bit, UInt32.toNat_xor, hshift, hpoly]
  rfl

theorem toNat_bits (n : Nat) (c : UInt32) :
    (Crc.bits polynomial n c).toNat = bitNat^[n] c.toNat := by
  induction n generalizing c with
  | zero => rfl
  | succ n ih => rw [Crc.bits_succ, ih, toNat_bit, Function.iterate_succ_apply]

/-- Word `j` of a line. -/
def lineWord (line j : Nat) : Nat := Nat.mod (Nat.shiftRight line (32 * (7 - j))) (2 ^ 32)

/-- The words of a slice, one by one. -/
def words (slice : List Nat) : List Nat :=
  slice.flatMap fun line => (List.range 8).map (lineWord line)

theorem getD_words (slice : List Nat) (i : Nat) :
    (words slice).getD i 0 = lineWord (slice.getD (i / 8) 0) (i % 8) := by
  have hzero : ∀ j, lineWord 0 j = 0 := by
    intro j
    change 0 >>> _ % _ = 0
    rw [Nat.zero_shiftRight, Nat.zero_mod]
  induction slice generalizing i with
  | nil => simp [words, hzero]
  | cons line slice ih =>
      have hcons : words (line :: slice) = (List.range 8).map (lineWord line) ++ words slice := rfl
      rw [hcons]
      by_cases hi : i < 8
      · rw [List.getD_append _ _ _ _ (by simpa using hi), Nat.div_eq_of_lt hi, Nat.mod_eq_of_lt hi]
        simp [List.getD_eq_getElem?_getD, hi]
      · obtain ⟨j, rfl⟩ := Nat.exists_eq_add_of_le (Nat.le_of_not_lt hi)
        rw [List.getD_append_right _ _ _ _ (by simp), List.length_map, List.length_range,
          Nat.add_sub_cancel_left, ih, Nat.add_div_left j (by decide), Nat.add_mod_left,
          List.getD_cons_succ]

/-- The first slice has the eight bits of an octet, and each slice eight more
bits than the one before. -/
theorem words_slices : words slice0 = (List.range 256).map bitNat^[8]
    ∧ crc32LookupTable.tail.map words
      = crc32LookupTable.dropLast.map fun slice => (words slice).map bitNat^[8] := by
  decide +kernel

/-- The words of a slice. -/
theorem words_slice {k : Nat} (hk : k < 16) :
    words (crc32LookupTable.getD k []) = (List.range 256).map bitNat^[8 * (k + 1)] := by
  induction k with
  | zero => exact words_slices.1
  | succ k ih =>
      have hget := congrArg (fun l => l.getD k []) words_slices.2
      have htail : (crc32LookupTable.tail.map words).getD k []
          = words (crc32LookupTable.getD (k + 1) []) := by
        have hlen : k + 1 < crc32LookupTable.length := hk
        simp [List.getD_eq_getElem?_getD, List.getElem?_tail, hlen]
      have hinit : (crc32LookupTable.dropLast.map
          fun slice => (words slice).map bitNat^[8]).getD k []
            = (words (crc32LookupTable.getD k [])).map bitNat^[8] := by
        have hlen : k < crc32LookupTable.length - 1 := Nat.lt_of_succ_lt_succ hk
        have hk' : k < crc32LookupTable.length := by omega
        simp [List.getD_eq_getElem?_getD, hlen, hk']
      rw [htail, hinit, ih (by omega), List.map_map] at hget
      rw [hget]
      refine List.map_congr_left fun n _ => ?_
      rw [Function.comp_apply, ← Function.iterate_add_apply, Nat.mul_succ 8 (k + 1), Nat.add_comm]

/-- **The table** has what the bits leave. -/
theorem crc32Lookup_eq {slice : Nat} (hslice : slice < 16) (x : UInt8) :
    crc32Lookup slice x.toUInt32 = Crc.table polynomial slice x := by
  have hword := getD_words (crc32LookupTable.getD slice []) x.toNat
  rw [words_slice hslice] at hword
  have hbits : ((List.range 256).map bitNat^[8 * (slice + 1)]).getD x.toNat 0
      = bitNat^[8 * (slice + 1)] x.toNat := by
    simp [List.getD_eq_getElem?_getD, x.toNat_lt]
  apply UInt32.toNat_inj.mp
  rw [Crc.table, toNat_bits, UInt8.toNat_toUInt32, crc32Lookup, UInt8.toNat_toUInt32, ← hbits,
    hword]
  exact UInt32.toNat_ofNat

end Fecraw.Ports.Crc32
